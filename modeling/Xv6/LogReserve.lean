import Mathlib.Algebra.BigOperators.Ring.Finset
import Mathlib.Data.Finset.Dedup
import Xv6.LogCommit

/-!
# The log space that `begin_op` reserves

An operation may log at most `MAXOPBLOCKS` distinct blocks.  The invariant is that the header and what all open
operations may still add fit into `LOGSIZE` entries together.  So a *new* block always finds room.  The capacity
test of `log_write`, however, comes before the loop that absorbs repeated blocks: when the header is exactly full,
logging a block that is already there panics although it needs no room (`logWrite_full_panics`).
-/

namespace Xv6

open Finset

section

variable {P : Type} [DecidableEq P]

/-- What `begin_op` relies on: an operation logs at most `MAXOPBLOCKS` distinct blocks, each any number of times. -/
def LogSys.Disciplined (s : LogSys P) : LogEv P → Prop
  | .logWrite p b => ∀ wrote, s.pc p = .inOp wrote → (b :: wrote).toFinset.card ≤ MAXOPBLOCKS
  | _ => True

/-- A full header is not asked to absorb a block it already holds. -/
def LogSys.RoomOrNew (s : LogSys P) : LogEv P → Prop
  | .logWrite _ b => s.log.lh.length = LOGSIZE → b ∉ s.log.lh
  | _ => True

/-- The blocks an operation may still add to the header. -/
def OpPc.left : OpPc → Nat
  | .inOp wrote => MAXOPBLOCKS - wrote.toFinset.card
  | _ => 0

theorem OpPc.left_le (c : OpPc) : c.left ≤ MAXOPBLOCKS * c.ops := by
  cases c <;> simp [left, ops]

variable [Fintype P]

/-- The header together with everything the open operations may still log fits into the log. -/
structure LogSys.Reserved (nlog : Int) (s : LogSys P) : Prop where
  size : s.log.size = nlog
  nodup : s.log.lh.Nodup
  mem : ∀ p wrote, s.pc p = .inOp wrote → ∀ b ∈ wrote, b ∈ s.log.lh
  space : s.log.lh.length + ∑ p, (s.pc p).left ≤ LOGSIZE

omit [DecidableEq P] in
/-- A block that is not in the header takes one of the entries its operation has left. -/
theorem LogSys.Reserved.room {nlog : Int} {s : LogSys P} (h : s.Reserved nlog) {p : P} {wrote : List UInt32}
    {b : UInt32} (hp : s.pc p = .inOp wrote) (hd : s.Disciplined (.logWrite p b)) (hb : b ∉ s.log.lh) :
    (OpPc.inOp (b :: wrote)).left + 1 = (s.pc p).left ∧ s.log.lh.length < LOGSIZE := by
  have hbw : b ∉ wrote := fun hm => hb (h.mem p wrote hp b hm)
  have hcard : (b :: wrote).toFinset.card = wrote.toFinset.card + 1 := by
    rw [List.toFinset_cons, card_insert_of_notMem (by simpa using hbw)]
  have hle := hd wrote hp
  have hl : (OpPc.inOp (b :: wrote)).left + 1 = (s.pc p).left := by
    simp only [hp, OpPc.left]
    omega
  have := le_sum OpPc.left s.pc p
  have := h.space
  exact ⟨hl, by omega⟩

theorem LogSys.Reserved.step {nlog : Int} {s t : LogSys P} {e : LogEv P} (hi : s.Inv) (h : s.Reserved nlog)
    (hd : s.Disciplined e) (hs : s.step e = some (.ok t)) : t.Reserved nlog := by
  -- `p` moves to `c`, the header to `lh`; what the others have logged stays in it
  have keep : ∀ {p : P} {c : OpPc}, t.pc = Function.update s.pc p c → t.log.size = s.log.size → t.log.lh.Nodup →
      (∀ b ∈ s.log.lh, b ∈ t.log.lh) → (∀ wrote, c = .inOp wrote → ∀ b ∈ wrote, b ∈ t.log.lh) →
      (t.log.lh.length + c.left ≤ s.log.lh.length + (s.pc p).left ∨
        t.log.lh.length + c.left + ∑ q, (s.pc q).left ≤ LOGSIZE + (s.pc p).left) → t.Reserved nlog := by
    intro p c hpc hsz hnd hsub hc hlen
    refine ⟨hsz.trans h.size, hnd, fun q w hq b hb => ?_, ?_⟩
    · rw [hpc] at hq
      by_cases hqp : q = p
      · subst hqp
        rw [Function.update_self] at hq
        exact hc w hq b hb
      · rw [Function.update_of_ne hqp] at hq
        exact hsub b (h.mem q w hq b hb)
    · have := sum_update OpPc.left s.pc p c
      have := h.space
      rw [hpc]
      omega
  cases e with
  | beginOp p =>
    obtain ⟨-, rfl | ⟨-, hroom, rfl⟩⟩ := beginOp_ok hs
    · exact keep rfl rfl h.nodup (fun _ => id) (by simp) (.inl (Nat.add_le_add_left (Nat.zero_le _) _))
    · -- the reservation of `p` is what the test of `begin_op` found free
      have hsum : ∑ q, (s.pc q).left ≤ MAXOPBLOCKS * ∑ q, (s.pc q).ops := by
        rw [mul_sum]
        exact sum_le_sum fun q _ => OpPc.left_le _
      have hout := hi.outstanding
      have h10 : (OpPc.inOp []).left = MAXOPBLOCKS := rfl
      refine keep rfl rfl h.nodup (fun _ => id) (fun w hw b hb => ?_) (.inr ?_)
      · cases hw
        simp at hb
      · rw [hout] at hroom
        simp only [setPc, h10]
        simp only [MAXOPBLOCKS, LOGSIZE] at *
        omega
  | logWrite p b =>
    obtain ⟨w, hp, -, rfl⟩ := logWrite_ok hs
    have hmem : ∀ c ∈ b :: w, c ∈ absorb s.log.lh b := by
      intro c hc
      rcases List.mem_cons.1 hc with rfl | hc
      · exact mem_absorb.2 (.inl rfl)
      · exact mem_absorb.2 (.inr (h.mem p w hp c hc))
    refine keep rfl rfl (nodup_absorb h.nodup b) (fun c hc => mem_absorb.2 (.inr hc))
      (fun w' hw' => ?_) (.inl ?_)
    · cases hw'
      exact hmem
    · by_cases hb : b ∈ s.log.lh
      · have : w.toFinset.card ≤ (b :: w).toFinset.card := by
          rw [List.toFinset_cons]
          exact card_le_card (subset_insert b _)
        simp only [setPc, absorb_of_mem hb, hp, OpPc.left]
        omega
      · have := (h.room hp hd hb).1
        simp only [setPc, absorb_of_notMem hb, List.length_append, List.length_singleton]
        omega
  | endOp p =>
    obtain ⟨w, hp, -, ⟨-, rfl⟩ | ⟨-, rfl⟩⟩ := endOp_ok hs <;>
      exact keep rfl rfl h.nodup (fun _ => id) (by simp) (.inl (Nat.add_le_add_left (Nat.zero_le _) _))
  | commit p =>
    obtain ⟨c, c', lh, head, hp, hlh, -, -, -, -, rfl⟩ := commit_ok hs
    have none := hi.no_op (hi.committing p c hp)
    have hsum := sum_update OpPc.left s.pc p (.inCommit c')
    have hspace := h.space
    refine ⟨h.size, ?_, fun q w hq => ?_, ?_⟩
    · rcases hlh with rfl | ⟨-, rfl⟩
      · exact h.nodup
      · exact List.nodup_nil
    · -- nobody is inside an operation
      by_cases hqp : q = p
      · subst hqp
        simp [setPc] at hq
      · simp only [setPc, Function.update_of_ne hqp] at hq
        exact absurd hq (none q w)
    · rw [hp] at hsum
      change _ + 0 = _ + 0 at hsum
      rcases hlh with rfl | ⟨-, rfl⟩ <;> simp only [setPc, List.length_nil] <;> omega
  | finish p =>
    obtain ⟨hp, rfl⟩ := finish_ok hs
    exact keep rfl rfl h.nodup (fun _ => id) (by simp) (.inl (Nat.add_le_add_left (Nat.zero_le _) _))

theorem LogSys.Reserved.of_reachable {nlog : Int} {s : LogSys P}
    (h : ((logLts P nlog).guard LogSys.Disciplined).Reachable s) : s.Inv ∧ s.Reserved nlog := by
  refine Lts.Reachable.invariant (I := fun s => s.Inv ∧ s.Reserved nlog) ?_ ?_ h
  · intro s h0
    obtain ⟨hsz, -, -, hlh, -, hpc⟩ := id h0
    exact ⟨Inv.init h0, hsz, by simp [hlh], fun p w hp => by simp [hpc p] at hp, by simp [hlh, hpc, OpPc.left]⟩
  · intro s e t ⟨hi, hr⟩ hs
    exact ⟨hi.step hs.2, hr.step hi hs.1 hs.2⟩

/-- With the capacity test as it stands, `log_write` panics exactly on a block that a full header already holds. -/
private theorem LogSys.Reserved.panic_iff {nlog : Int} (hnlog : LOGSIZE < nlog) {s : LogSys P} (h : s.Reserved nlog)
    {p : P} {b : UInt32} {wrote : List UInt32} (hp : s.pc p = .inOp wrote) (hd : s.Disciplined (.logWrite p b)) :
    s.step (.logWrite p b) = some (.error "too big a transaction") ↔ ¬ s.RoomOrNew (.logWrite p b) := by
  have hle : s.log.lh.length ≤ LOGSIZE := by
    have := h.space
    omega
  have hsize := h.size
  constructor
  · intro hs hr
    have hfull : s.log.lh.length = LOGSIZE := by
      simp only [LogSys.step, hp, Log.logWrite] at hs
      split at hs
      · omega
      · split at hs <;> simp [Except.map] at hs
    have := (h.room hp hd (hr hfull)).2
    omega
  · intro hr
    simp only [LogSys.RoomOrNew, Classical.not_imp] at hr
    simp [LogSys.step, hp, Log.logWrite, hr.1, Except.map]

/-- On a log with more than `LOGSIZE` blocks, in every run of operations that log at most `MAXOPBLOCKS` distinct
blocks each: `log_write` panics exactly when the header is full and already holds the block.  In the runs that avoid
this, the header never holds more than `LOGSIZE` blocks nor the same block twice, and the panic is unreachable. -/
theorem log_reservation_sound {nlog : Int} (hnlog : LOGSIZE < nlog) :
    (∀ s, ((logLts P nlog).guard fun s e => s.Disciplined e ∧ s.RoomOrNew e).Reachable s →
      s.log.lh.length ≤ LOGSIZE ∧ s.log.lh.Nodup) ∧
    ¬ ((logLts P nlog).guard fun s e => s.Disciplined e ∧ s.RoomOrNew e).Panics "too big a transaction" ∧
    ∀ s p b wrote, ((logLts P nlog).guard LogSys.Disciplined).Reachable s → s.pc p = .inOp wrote →
      s.Disciplined (.logWrite p b) →
      (s.step (.logWrite p b) = some (.error "too big a transaction") ↔ ¬ s.RoomOrNew (.logWrite p b)) := by
  refine ⟨fun s hs => ?_, ?_, fun s p b wrote hs hp hd => ?_⟩
  · obtain ⟨-, hr⟩ := LogSys.Reserved.of_reachable (hs.guard_mono fun _ _ => And.left)
    have := hr.space
    exact ⟨by omega, hr.nodup⟩
  · rintro ⟨s, e, hr, ⟨hd, hroom⟩, hs⟩
    obtain ⟨-, hres⟩ := LogSys.Reserved.of_reachable (hr.guard_mono fun _ _ => And.left)
    rcases LogSys.panic_cases hs with ⟨h, -⟩ | ⟨h, -⟩ | ⟨-, p, b, w, rfl, hp⟩
    · simp at h
    · simp at h
    · exact (hres.panic_iff hnlog hp hd).1 hs hroom
  · exact (LogSys.Reserved.of_reachable hs).2.panic_iff hnlog hp hd

end

/-- Three operations fill the header with ten blocks each; then the third logs its last block once more. -/
def fillLog : List (LogEv (Fin 3)) :=
  [.beginOp 0, .beginOp 1, .beginOp 2] ++
    (List.finRange 3).flatMap fun p => (List.range 10).map fun i => .logWrite p (.ofNat (10 * p + i))

private def emptyLog : LogSys (Fin 3) where
  log := { start := 2, size := 31, outstanding := 0, committing := false, dev := 1, lh := [] }
  head := []
  pc _ := .out

/-- The test of `LogSys.Disciplined`. -/
private def disciplined (s : LogSys (Fin 3)) : LogEv (Fin 3) → Bool
  | .logWrite p b =>
    match s.pc p with
    | .inOp wrote => (b :: wrote).toFinset.card ≤ MAXOPBLOCKS
    | _ => true
  | _ => true

private theorem disciplined_iff (s : LogSys (Fin 3)) (e : LogEv (Fin 3)) : disciplined s e = true ↔ s.Disciplined e := by
  cases e with
  | logWrite p b => cases h : s.pc p <;> simp [disciplined, LogSys.Disciplined, h]
  | _ => simp [disciplined, LogSys.Disciplined]

/-- The test of `LogSys.RoomOrNew`. -/
private def roomOrNew (s : LogSys (Fin 3)) : LogEv (Fin 3) → Bool
  | .logWrite _ b => s.log.lh.length ≠ LOGSIZE ∨ b ∉ s.log.lh
  | _ => true

private theorem roomOrNew_iff (s : LogSys (Fin 3)) (e : LogEv (Fin 3)) : roomOrNew s e = true ↔ s.RoomOrNew e := by
  cases e <;> simp [roomOrNew, LogSys.RoomOrNew, imp_iff_not_or]

private theorem emptyLog_reachable {C : LogSys (Fin 3) → LogEv (Fin 3) → Prop} :
    ((logLts (Fin 3) 31).guard C).Reachable emptyLog :=
  .of_init ⟨rfl, rfl, rfl, rfl, rfl, fun _ => rfl⟩

/-- The three operations fill the header without a panic, and it then holds thirty distinct blocks. -/
theorem log_reservation_sound_fillLog :
    ∃ s, ((logLts (Fin 3) 31).guard fun s e => s.Disciplined e ∧ s.RoomOrNew e).Reachable s ∧
      s.log.lh.length = LOGSIZE ∧ s.log.lh.Nodup := by
  obtain ⟨t, ht, hlen⟩ : ∃ t, Lts.replay LogSys.step (fun s e => disciplined s e && roomOrNew s e) emptyLog fillLog =
      some t ∧ t.log.lh.length = LOGSIZE := ⟨_, rfl, rfl⟩
  have hr : ((logLts (Fin 3) 31).guard fun s e => s.Disciplined e ∧ s.RoomOrNew e).Reachable t := by
    refine .replay (fun s e h => ?_) emptyLog_reachable ht
    rw [Bool.and_eq_true] at h
    exact ⟨(disciplined_iff s e).1 h.1, (roomOrNew_iff s e).1 h.2⟩
  exact ⟨t, hr, hlen, ((log_reservation_sound (by decide)).1 t hr).2⟩

/-- Ten distinct blocks for each of three operations, and one of them logged twice: `log_write` panics. -/
theorem logWrite_full_panics :
    ((logLts (Fin 3) 31).guard LogSys.Disciplined).Panics "too big a transaction" := by
  obtain ⟨t, ht, hd, hp⟩ : ∃ t, Lts.replay LogSys.step disciplined emptyLog fillLog = some t ∧
      disciplined t (.logWrite 2 29) = true ∧
      t.step (.logWrite 2 29) = some (.error "too big a transaction") := ⟨_, rfl, rfl, rfl⟩
  exact ⟨t, _, .replay (fun s e => (disciplined_iff s e).1) emptyLog_reachable ht, (disciplined_iff _ _).1 hd, hp⟩

end Xv6
