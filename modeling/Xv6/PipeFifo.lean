import Xv6.Pipe

/-!
# A pipe is a queue

Beside the system a history has the bytes that `pipewrite` has put into the buffer and those that `piperead` has taken out and
copied to its user.  The second are always a prefix of the first, and the rest is in the buffer (`pipe_fifo`), however often
`nread` and `nwrite` have wrapped around.
-/

namespace Xv6

open Function (update)

/-- The bytes accepted from writers and those delivered to readers, oldest first. -/
structure PipeHist where
  accepted : List UInt8 := []
  delivered : List UInt8 := []

namespace PipeSys

/-- What the next step of a process adds to the history. -/
def recordAt (pi : PipeBuf) (copied : Bool) (ch : UInt8) (h : PipeHist) : PipePc → PipeHist
  | .copyin _ _ => if copied then { h with accepted := h.accepted ++ [ch] } else h
  | .copyout n i =>
    if i < n ∧ pi.nread ≠ pi.nwrite ∧ copied = true then { h with delivered := h.delivered ++ [pi.data (slot pi.nread)] } else h
  | _ => h

def record (s : PipeSys) (e : PipeEv) (h : PipeHist) : PipeHist :=
  match e with
  | .next p copied ch => recordAt s.pi copied ch h (s.pc p)
  | _ => h

/-- The user's buffers are mapped. -/
def Mapped (_ : PipeSys × PipeHist) (e : PipeEv) : Prop := ∀ p copied ch, e = .next p copied ch → copied = true

end PipeSys

/-- A pipe with its history. -/
def pipeHistory : Lts (PipeSys × PipeHist) PipeEv :=
  .ofFun (fun x => x.1.Init ∧ x.2 = {}) (Lts.histStep PipeSys.step PipeSys.record)

namespace PipeSys

/-- The bytes that were accepted and not delivered are in the buffer. -/
def Fifo (pi : PipeBuf) (h : PipeHist) : Prop :=
  ∃ l, h.accepted = h.delivered ++ l ∧ l.length ≤ 512 ∧ pi.nwrite = .ofNat h.accepted.length ∧
    pi.nread = .ofNat h.delivered.length ∧ ∀ (k : Nat) (hk : k < l.length), pi.data (slot (.ofNat (h.delivered.length + k))) = l[k]

/-- What the holder of `pi->lock` has found out. -/
def Found (pi : PipeBuf) : PipePc → Prop
  | .copyin _ _ => pi.nwrite ≠ pi.nread + PIPESIZE
  | .copyout _ i => 0 ≤ i ∧ (i = 0 → ¬(pi.nread = pi.nwrite ∧ pi.writeopen = true))
  | .wakeup _ _ (.ret (.read n) a0) | .release (.read n) a0 => a0 = 0 → 0 < n → pi.nread = pi.nwrite ∧ pi.writeopen = false
  | _ => True

theorem slot_ofNat (n : Nat) : (slot (.ofNat n)).val = n % 512 := by
  simp only [slot, Fin.ofNat, UInt32.toNat_ofNat']
  omega

theorem Fifo.init {pi : PipeBuf} (hr : pi.nread = 0) (hw : pi.nwrite = 0) : Fifo pi {} :=
  ⟨[], rfl, by simp, hw, hr, fun k hk => by simp at hk⟩

/-- A byte goes into a buffer that is not full. -/
theorem Fifo.put {pi : PipeBuf} {h : PipeHist} (hf : Fifo pi h) (hn : pi.nwrite ≠ pi.nread + PIPESIZE) (ch : UInt8) :
    Fifo { pi with data := update pi.data (slot pi.nwrite) ch, nwrite := pi.nwrite + 1 } { h with accepted := h.accepted ++ [ch] } := by
  obtain ⟨l, hl, hlen, hw, hr, hd⟩ := hf
  have hacc : h.accepted.length = h.delivered.length + l.length := by rw [hl, List.length_append]
  have hlt : l.length < 512 := by
    refine lt_of_le_of_ne hlen fun hc => hn ?_
    rw [hw, hr, hacc, hc, UInt32.ofNat_add]
    rfl
  refine ⟨l ++ [ch], by simp [hl], by simp; omega, ?_, hr, fun k hk => ?_⟩
  · rw [List.length_append, UInt32.ofNat_add, ← hw]
    rfl
  · rw [List.length_append, List.length_singleton] at hk
    dsimp only
    by_cases hkl : k < l.length
    · rw [Function.update_of_ne, hd k hkl, List.getElem_append_left hkl]
      rw [hw, ← Fin.val_ne_iff, slot_ofNat, slot_ofNat, hacc]
      omega
    · obtain rfl : k = l.length := by omega
      rw [← hacc, hw, Function.update_self, List.getElem_concat_length rfl]

/-- The oldest byte comes out. -/
theorem Fifo.get {pi : PipeBuf} {h : PipeHist} (hf : Fifo pi h) (hn : pi.nread ≠ pi.nwrite) :
    Fifo { pi with nread := pi.nread + 1 } { h with delivered := h.delivered ++ [pi.data (slot pi.nread)] } := by
  obtain ⟨l, hl, hlen, hw, hr, hd⟩ := hf
  cases l with
  | nil =>
    rw [List.append_nil] at hl
    rw [hw, hr, hl] at hn
    exact (hn rfl).elim
  | cons x l =>
    have hx : pi.data (slot pi.nread) = x := by
      rw [hr]
      exact hd 0 (Nat.succ_pos _)
    refine ⟨l, by simp [hl, hx], by simp at hlen; omega, hw, ?_, fun k hk => ?_⟩
    · rw [List.length_append, UInt32.ofNat_add, ← hr]
      rfl
    · have := hd (k + 1) (by simpa using hk)
      simpa [Nat.add_assoc, Nat.add_comm 1 k] using this

theorem Fifo.congr {pi pi' : PipeBuf} {h : PipeHist} (hf : Fifo pi h) (hr : pi'.nread = pi.nread) (hw : pi'.nwrite = pi.nwrite)
    (hd : pi'.data = pi.data) : Fifo pi' h := by
  unfold Fifo
  rw [hr, hw, hd]
  exact hf

/-- The invariant of the runs with their history. -/
structure Queue (s : PipeSys) (h : PipeHist) : Prop where
  locks : s.Locks
  fifo : Fifo s.pi h
  found : ∀ p, (s.pc p).holds = true → Found s.pi (s.pc p)

variable {s t : PipeSys} {h : PipeHist} {p q : Slot} {ch : UInt8} {x : PipePc}

/-- The process that takes a step finds out what it has to. -/
theorem found_goto {u : PipeSys} (hf : ∀ q ≠ p, (u.pc q).holds = true → Found u.pi (u.pc q)) (hx : x.holds = true → Found u.pi x) (q : Slot)
    (hq : ((u.goto p x).pc q).holds = true) : Found (u.goto p x).pi ((u.goto p x).pc q) := by
  by_cases hqp : q = p
  · rw [hqp, goto_pc] at hq ⊢
    exact hx hq
  · rw [goto_pc_of_ne hqp] at hq ⊢
    exact hf q hqp hq

/-- It does not matter how far `wakeup` is. -/
theorem Found.wakeup {pi : PipeBuf} {c : PipeChan} {i j : Nat} {k : PipeNext} (h : Found pi (.wakeup c i k)) : Found pi (.wakeup c j k) := by
  cases k with
  | ret l a0 =>
    cases l with
    | write n i => trivial
    | read n => exact h
  | _ => trivial

theorem queue_turn (hq : Queue s h) (ht : Turn s p true ch (s.pc p) t) :
    Fifo t.pi (recordAt s.pi true ch h (s.pc p)) ∧ ∀ q, (t.pc q).holds = true → Found t.pi (t.pc q) := by
  have hfound := hq.found p
  have hlocks := hq.locks p
  have hf := hq.fifo
  generalize hpc : s.pc p = x at ht hfound ⊢
  have hothers : ∀ q ≠ p, (s.pc q).holds = true → Found s.pi (s.pc q) := fun q _ => hq.found q
  -- where the pipe changes, nobody else has the lock
  have halone : x.holds = true → ∀ pi, ∀ q ≠ p, (s.pc q).holds = true → Found pi (s.pc q) := by
    intro hx pi q hqp hqh
    have h1 := hlocks.lk.2 (hpc ▸ hx)
    have h2 := (hq.locks q).lk.2 hqh
    exact (hqp (Option.some.inj (h2.symm.trans h1))).elim
  cases ht with
  | acquire | close => exact ⟨hf, found_goto (u := s.setLk _) hothers fun _ => trivial⟩
  | gone | more | written | empty | write | wait | full | wokenSleep | wokenClosed =>
    exact ⟨hf, found_goto hothers fun _ => trivial⟩
  | some hc => exact ⟨hf, found_goto hothers fun _ => ⟨le_rfl, fun _ => hc⟩⟩
  | @killed l =>
    refine ⟨hf, found_goto hothers fun _ => ?_⟩
    cases l with
    | write n i => trivial
    | read n => exact fun h0 => by cases h0
  | room hn => exact ⟨hf, found_goto hothers fun _ => hn⟩
  | put hc => exact ⟨hf.put (hfound rfl) ch, found_goto (u := s.setPi _) (halone rfl _) fun _ => trivial⟩
  | putFails hc => cases hc
  | @get n i hi hn hc =>
    obtain ⟨h0, -⟩ := hfound rfl
    rw [recordAt, if_pos ⟨hi, hn, rfl⟩]
    exact ⟨hf.get hn, found_goto (u := s.setPi _) (halone rfl _) fun _ => ⟨by omega, fun hc => by omega⟩⟩
  | getFails _ _ hc => cases hc
  | @read n i hi =>
    obtain ⟨-, hw⟩ := hfound rfl
    rw [recordAt, if_neg fun hc => hi ⟨hc.1, hc.2.1⟩]
    refine ⟨hf, found_goto hothers fun _ h0 hn => ?_⟩
    have he : s.pi.nread = s.pi.nwrite := by
      by_contra hne
      exact hi ⟨h0 ▸ hn, hne⟩
    exact ⟨he, by simpa [he] using hw h0⟩
  | setWrite | setRead => exact ⟨hf.congr rfl rfl rfl, found_goto (u := s.setPi _) (halone rfl _) fun _ => trivial⟩
  | @wakeSelf c k => exact ⟨hf, found_goto hothers fun _ => (hfound rfl).wakeup⟩
  | @wake c k q =>
    refine ⟨?_, found_goto ?_ fun _ => ?_⟩
    · change Fifo (s.wake c q).pi h
      rwa [wake_pi]
    · rw [wake_pi, wake_pc]
      exact hothers
    · rw [wake_pi]
      exact (hfound rfl).wakeup
  | @wokenRet c j l a0 =>
    refine ⟨hf, found_goto hothers fun _ => ?_⟩
    cases l with
    | write n i => trivial
    | read n => exact hfound rfl
  | lockSelf => exact ⟨hf, found_goto (u := s.setPlock p _) hothers fun _ => trivial⟩
  | drop | release => exact ⟨hf, found_goto (u := s.setLk _) hothers fun _ => trivial⟩
  | @mark l => exact ⟨hf, found_goto (u := (s.setChan p (some l.chan)).setState p .sleeping) hothers fun _ => trivial⟩
  | sched | unlockSelf => exact ⟨hf, found_goto (u := s.setPlock p _) hothers fun _ => trivial⟩
  | tidy => exact ⟨hf, found_goto (u := s.setChan p _) hothers fun _ => trivial⟩
  | closed => exact ⟨hf.congr rfl rfl rfl, found_goto (u := (s.setLk none).setPi _) (halone rfl _) fun _ => trivial⟩

theorem queue_step {e : PipeEv} (hq : Queue s h) (hm : Mapped (s, h) e) (hst : s.step e = some (.ok t)) : Queue t (s.record e h) := by
  have hl := locks_step hq.locks hst
  by_cases he : ∃ p copied ch, e = .next p copied ch
  · obtain ⟨p, copied, ch, rfl⟩ := he
    obtain rfl := hm p copied ch rfl
    simp only [step, Option.map_eq_some_iff, Except.ok.injEq] at hst
    obtain ⟨u, hu, rfl⟩ := hst
    obtain ⟨hf, hfound⟩ := queue_turn hq (next_turn hu)
    exact ⟨hl, hf, hfound⟩
  · have hrec : s.record e h = h := by
      cases e with
      | next p copied ch => exact (he ⟨p, copied, ch, rfl⟩).elim
      | _ => rfl
    rw [hrec]
    have hothers : ∀ p, ∀ q ≠ p, (s.pc q).holds = true → Found s.pi (s.pc q) := fun _ q _ => hq.found q
    rcases step_cases hst with ⟨p, l, -, rfl⟩ | ⟨p, w, -, rfl⟩ | ⟨p, copied, ch, hc, -⟩ | ⟨p, l, -, -, -, rfl⟩ | ⟨q, -, rfl⟩
    · exact ⟨hl, hq.fifo, found_goto (hothers p) fun _ => trivial⟩
    · exact ⟨hl, hq.fifo, found_goto (hothers p) fun _ => trivial⟩
    · exact (he ⟨p, copied, ch, hc⟩).elim
    · exact ⟨hl, hq.fifo, found_goto (u := (s.setPlock p (some p)).setState p .running) (hothers p) fun _ => trivial⟩
    · refine ⟨hl, ?_, ?_⟩
      · rw [kill_pi]
        exact hq.fifo
      · rw [kill_pi, kill_pc]
        exact hq.found

end PipeSys

open PipeSys

/-- The bytes that readers have got are the first of those that writers have given, the rest is in the buffer, and a read of more
than nothing that returns 0 has found the pipe empty and without a writer. -/
theorem pipe_fifo {s : PipeSys} {h : PipeHist} (hr : (pipeHistory.guard Mapped).Reachable (s, h)) :
    h.delivered <+: h.accepted ∧ h.accepted.length - h.delivered.length ≤ PIPESIZE.toNat ∧
      UInt32.ofNat (h.accepted.length - h.delivered.length) = s.pi.nwrite - s.pi.nread ∧
      ∀ p n, s.pc p = .release (.read n) 0 → 0 < n → s.pi.nread = s.pi.nwrite ∧ s.pi.writeopen = false := by
  have hq : Queue s h := by
    refine Lts.Reachable.invariant (I := fun x : PipeSys × PipeHist => Queue x.1 x.2) (fun x (h0 : x.1.Init ∧ x.2 = {}) => ?_)
      (fun x e y hx hst => ?_) hr
    · rw [h0.2]
      exact ⟨h0.1.locks, .init h0.1.nread h0.1.nwrite, fun p hp => by rw [h0.1.pc] at hp; cases hp⟩
    · obtain ⟨hst1, hst2⟩ := Lts.histStep_ok hst.2
      rw [hst2]
      exact queue_step hx hst.1 hst1
  obtain ⟨l, hl, hlen, hw, hn, -⟩ := hq.fifo
  have hsub : h.accepted.length - h.delivered.length = l.length := by rw [hl, List.length_append]; omega
  refine ⟨⟨l, hl.symm⟩, hsub ▸ hlen, ?_, fun p n hp hpos => ?_⟩
  · rw [hw, hn, hsub, hl, List.length_append, UInt32.ofNat_add, UInt32.add_comm, UInt32.add_sub_cancel]
  · have := hq.found p (by rw [hp]; rfl)
    rw [hp] at this
    exact this rfl hpos

/-- A process writes a byte, and another one reads it. -/
def byteRun : List PipeEv :=
  .pipewrite writer 1 :: (List.replicate 72 (.next writer true 65) ++ .piperead reader 1 :: List.replicate 3 (.next reader true 0))

private def mappedTest (_ : PipeSys × PipeHist) : PipeEv → Bool
  | .next _ copied _ => copied
  | _ => true

theorem pipe_fifo_byteRun : ∃ (s : PipeSys) (h : PipeHist), h.delivered = [65] ∧ h.delivered <+: h.accepted ∧
    UInt32.ofNat (h.accepted.length - h.delivered.length) = s.pi.nwrite - s.pi.nread := by
  obtain ⟨⟨s, h⟩, hs, hp⟩ := Lts.Reachable.replay_any (I := fun x : PipeSys × PipeHist => x.1.Init ∧ x.2 = {})
    (f := Lts.histStep PipeSys.step PipeSys.record) (C := Mapped) (c := mappedTest)
    (fun x e hc p copied ch he => by
      subst he
      exact hc) (l := byteRun) (s := (PipeSys.started, {})) ⟨PipeSys.started_init, rfl⟩
    (P := fun x => decide (x.2.delivered = [65])) (by decide)
  obtain ⟨h1, -, h2, -⟩ := pipe_fifo hs
  exact ⟨s, h, of_decide_eq_true hp, h1, h2⟩

end Xv6
