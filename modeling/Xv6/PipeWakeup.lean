import Xv6.Pipe

/-!
# Wakeups on a pipe

Readers sleep on `&pi->nread` until there are bytes or no writer, writers on `&pi->nwrite` until there is room or no reader.  When
`pi->lock` is free, nobody sleeps for whom the condition holds (`pipe_wakeups`), in all runs in which no writer finds itself killed
after it has stored bytes that a sleeping reader does not know of: at that exit of `pipewrite` there is no `wakeup`
(`killedWriter_loses`).
-/

namespace Xv6

open Function (update)

namespace PipeSys

/-- What the sleepers on a channel wait for. -/
def Cond (pi : PipeBuf) : PipeChan → Prop
  | .nread => pi.nread ≠ pi.nwrite ∨ pi.writeopen = false
  | .nwrite => pi.nwrite ≠ pi.nread + PIPESIZE ∨ pi.readopen = false

variable (s : PipeSys)

/-- Process `p` sleeps on `c`, or has released `pi->lock` for that. -/
def Asleep (p : Slot) (c : PipeChan) : Prop :=
  (∃ l, s.pc p = .mark l ∧ l.chan = c) ∨ s.state p = .sleeping ∧ s.chan p = some c

/-- No process with a number below `j` sleeps on `c` although what it waits for is there. -/
def QuietBelow (c : PipeChan) (j : Nat) : Prop := ∀ p, s.Asleep p c → Cond s.pi c → j ≤ p.val

def Quiet (c : PipeChan) : Prop := ∀ p, s.Asleep p c → ¬Cond s.pi c

/-- No reader sleeps without a writer. -/
def Open : Prop := ∀ p, s.Asleep p .nread → s.pi.writeopen = true

/-- What holds when the holder of `pi->lock` is at a point.  A writer in its loop may owe the readers a `wakeup`, a reader in its
second loop owes one to the writers. -/
def Held : PipePc → Prop
  | .top (.write _ _) => s.Quiet .nwrite ∧ s.Open ∧ (s.Quiet .nread ∨ s.pi.readopen = true)
  | .killed (.write _ _) | .full _ _ => s.Quiet .nwrite ∧ s.Open ∧ s.pi.readopen = true
  | .copyin _ _ => s.Quiet .nwrite ∧ s.Open ∧ s.pi.readopen = true ∧ s.pi.nwrite ≠ s.pi.nread + PIPESIZE
  | .copyout _ _ => s.Quiet .nread
  | .top (.read _) | .set _ | .release _ _ | .closed => ∀ c, s.Quiet c
  | .killed (.read n) => (∀ c, s.Quiet c) ∧ ¬Cond s.pi (PipeLoop.read n).chan
  | .lockSelf l | .drop l => (∀ c, s.Quiet c) ∧ ¬Cond s.pi l.chan
  | .wakeup c j k => (∀ d ≠ c, s.Quiet d) ∧ s.QuietBelow c j ∧ ∀ n i, k = .sleep n i → ¬Cond s.pi .nwrite
  | _ => True

/-- No wakeup is lost. -/
def Sound : Prop :=
  match s.lk with
  | none => ∀ c, s.Quiet c
  | some p => s.Held (s.pc p)

variable {s} {t : PipeSys} {p q : Slot} {copied : Bool} {ch : UInt8} {x : PipePc} {c : PipeChan}

theorem Quiet.open (h : s.Quiet .nread) : s.Open := by
  intro p hp
  cases hw : s.pi.writeopen with
  | true => rfl
  | false => exact (h p hp (.inr hw)).elim

/-- No one is asleep who has nothing to wait for. -/
theorem Quiet.none_asleep (h : s.Quiet c) (hc : Cond s.pi c) (p : Slot) : ¬s.Asleep p c := fun hp => h p hp hc

theorem Held.mono (hpi : t.pi = s.pi) (ha : ∀ p c, t.Asleep p c → s.Asleep p c) (h : s.Held x) : t.Held x := by
  have hq : ∀ c, s.Quiet c → t.Quiet c := fun c hc p hp => by
    rw [hpi]
    exact hc p (ha p c hp)
  have hb : ∀ c j, s.QuietBelow c j → t.QuietBelow c j := fun c j hc p hp hcond => hc p (ha p c hp) (hpi ▸ hcond)
  have ho : s.Open → t.Open := fun ho p hp => by
    rw [hpi]
    exact ho p (ha p _ hp)
  cases x with
  | top l =>
    cases l with
    | write n i =>
      simp only [Held, hpi] at h ⊢
      exact ⟨hq _ h.1, ho h.2.1, h.2.2.imp_left (hq _)⟩
    | read n => exact fun c => hq c (h c)
  | killed l =>
    cases l with
    | write n i =>
      simp only [Held, hpi] at h ⊢
      exact ⟨hq _ h.1, ho h.2.1, h.2.2⟩
    | read n =>
      simp only [Held, hpi] at h ⊢
      exact ⟨fun c => hq c (h.1 c), h.2⟩
  | full n i =>
    simp only [Held, hpi] at h ⊢
    exact ⟨hq _ h.1, ho h.2.1, h.2.2⟩
  | copyin n i =>
    simp only [Held, hpi] at h ⊢
    exact ⟨hq _ h.1, ho h.2.1, h.2.2⟩
  | copyout n i => exact hq _ h
  | set w => exact fun c => hq c (h c)
  | release l a0 => exact fun c => hq c (h c)
  | closed => exact fun c => hq c (h c)
  | lockSelf l =>
    simp only [Held, hpi] at h ⊢
    exact ⟨fun c => hq c (h.1 c), h.2⟩
  | drop l =>
    simp only [Held, hpi] at h ⊢
    exact ⟨fun c => hq c (h.1 c), h.2⟩
  | wakeup c j k =>
    simp only [Held, hpi] at h ⊢
    exact ⟨fun d hd => hq d (h.1 d hd), hb c j h.2.1, h.2.2⟩
  | _ => trivial

theorem asleep_goto (hx : ∀ l, x ≠ .mark l) (h : (s.goto p x).Asleep q c) : s.Asleep q c := by
  refine h.imp_left fun ⟨l, hl, hc⟩ => ?_
  by_cases hqp : q = p
  · rw [hqp, goto_pc] at hl
    exact (hx l hl).elim
  · exact ⟨l, by rwa [goto_pc_of_ne hqp] at hl, hc⟩

/-- The holder of `pi->lock` goes on. -/
theorem sound_goto (hlk : s.lk = some p) (h : s.Held x) (hx : ∀ l, x ≠ .mark l) : (s.goto p x).Sound := by
  have hlk' : (s.goto p x).lk = some p := hlk
  unfold Sound
  rw [hlk']
  dsimp only
  rw [goto_pc]
  exact Held.mono (s := s) rfl (fun _ _ => asleep_goto hx) h

/-- Another process takes a step. -/
theorem Sound.other (h : s.Sound) (hlk : t.lk = s.lk) (hpi : t.pi = s.pi) (ha : ∀ q c, t.Asleep q c → s.Asleep q c)
    (hpc : ∀ q, s.lk = some q → t.pc q = s.pc q) : t.Sound := by
  unfold Sound at h ⊢
  rw [hlk]
  cases hl : s.lk with
  | none =>
    rw [hl] at h
    intro c q hq
    rw [hpi]
    exact h c q (ha q c hq)
  | some q =>
    rw [hl] at h
    dsimp only at h ⊢
    rw [hpc q hl]
    exact h.mono hpi ha

/-- A process that is not switched out does not sleep. -/
theorem not_asleep (h : Locks s) (hx : s.pc p = x) (hold : ∀ l, x ≠ .sched l ∧ x ≠ .off l) (hm : ∀ l, x ≠ .mark l) : ¬s.Asleep p c := by
  rintro (⟨l, hl, -⟩ | ⟨hs, -⟩)
  · exact hm l (hx.symm.trans hl)
  · exact h.awake (hx ▸ hold) hs

/-- A sleeper whose lock is free is found by `wakeup`. -/
theorem asleep_wake (h : Locks s) (hq : s.plock q = none) : ¬(s.wake c q).Asleep q c := by
  rintro (⟨l, hl, -⟩ | ⟨hs, hc⟩)
  · rw [wake_pc] at hl
    have := (h q).plock
    rw [hq, hl] at this
    cases this
  · unfold wake at hs hc
    split at hs
    · simp [setState] at hs
    · rename_i hn
      rw [if_neg hn] at hc
      exact hn ⟨hs, hc⟩

theorem asleep_of_wake {d : PipeChan} {r : Slot} (h : (s.wake c q).Asleep r d) : s.Asleep r d := by
  unfold wake at h
  split at h
  · refine h.imp_right fun ⟨hs, hc⟩ => ⟨?_, hc⟩
    by_cases hrq : r = q
    · rw [hrq] at hs
      simp [setState] at hs
    · simpa [setState, hrq] using hs
  · exact h

/-- A writer that finds itself killed leaves no byte in the buffer that a sleeping reader does not know of. -/
def Announced (s : PipeSys) (e : PipeEv) : Prop :=
  ∀ p copied ch n i, e = .next p copied ch → s.pc p = .killed (.write n i) → s.killed p = true →
    ∀ q, s.Asleep q .nread → s.pi.nread = s.pi.nwrite

/-- `wakeup` has been at all slots. -/
theorem quiet_of_below {j : Nat} (hd : ∀ d ≠ c, s.Quiet d) (hb : s.QuietBelow c j) (hj : ¬j < NPROC) (d : PipeChan) : s.Quiet d := by
  by_cases hdc : d = c
  · intro q hq hc
    have := hb q (hdc ▸ hq) (hdc ▸ hc)
    omega
  · exact hd d hdc

theorem sound_turn (hl : Locks s) (h : s.Sound) (hg : s.Announced (.next p copied ch)) (ht : Turn s p copied ch (s.pc p) t) :
    t.Sound := by
  have hat := hl p
  generalize hpc : s.pc p = x at ht
  have hheld : x.holds = true → s.lk = some p ∧ s.Held x := by
    intro hx
    have hlk := hat.lk.2 (hpc ▸ hx)
    unfold Sound at h
    rw [hlk] at h
    exact ⟨hlk, hpc ▸ h⟩
  have hother : x.holds = false → ∀ q, s.lk = some q → q ≠ p := by
    rintro hx q hq rfl
    have := hat.lk.1 hq
    rw [hpc, hx] at this
    cases this
  cases ht with
  | @acquire l hlk =>
    unfold Sound at h
    rw [hlk] at h
    refine sound_goto (s := s.setLk (some p)) rfl ?_ (by simp)
    cases l with
    | write n i => exact ⟨h .nwrite, (h .nread).open, .inl (h .nread)⟩
    | read n => exact h
  | close hlk =>
    unfold Sound at h
    rw [hlk] at h
    exact sound_goto (s := s.setLk (some p)) rfl h (by simp)
  | gone hi hr =>
    obtain ⟨hlk, hn, -, hh⟩ := hheld rfl
    refine sound_goto hlk (fun c => ?_) (by simp)
    cases c with
    | nread => exact hh.resolve_right (by simp [hr])
    | nwrite => exact hn
  | more hi hr =>
    obtain ⟨hlk, hn, ho, -⟩ := hheld rfl
    exact sound_goto hlk ⟨hn, ho, hr⟩ (by simp)
  | written hi =>
    obtain ⟨hlk, hn, ho, -⟩ := hheld rfl
    refine sound_goto hlk ⟨fun d hd => ?_, fun _ _ _ => Nat.zero_le _, by simp⟩ (by simp)
    cases d with
    | nread => exact (hd rfl).elim
    | nwrite => exact hn
  | empty he hw =>
    obtain ⟨hlk, hh⟩ := hheld rfl
    exact sound_goto hlk ⟨hh, by simp [Cond, PipeLoop.chan, he, hw]⟩ (by simp)
  | some hc =>
    obtain ⟨hlk, hh⟩ := hheld rfl
    exact sound_goto hlk (hh .nread) (by simp)
  | @killed l hk =>
    obtain ⟨hlk, hh⟩ := hheld rfl
    refine sound_goto hlk ?_ (by simp)
    cases l with
    | write n i =>
      intro c
      cases c with
      | nread =>
        intro q hq hc
        rcases hc with hc | hc
        · exact hc (hg p copied ch n i rfl hpc hk q hq)
        · rw [hh.2.1 q hq] at hc
          cases hc
      | nwrite => exact hh.1
    | read n => exact hh.1
  | write hk =>
    obtain ⟨hlk, hh⟩ := hheld rfl
    exact sound_goto hlk hh (by simp)
  | wait hk =>
    obtain ⟨hlk, hh⟩ := hheld rfl
    exact sound_goto hlk hh (by simp)
  | full hf =>
    obtain ⟨hlk, hn, ho, hr⟩ := hheld rfl
    refine sound_goto hlk ⟨fun d hd => ?_, fun _ _ _ => Nat.zero_le _, fun _ _ _ => by simp [Cond, hf, hr]⟩ (by simp)
    cases d with
    | nread => exact (hd rfl).elim
    | nwrite => exact hn
  | room hf =>
    obtain ⟨hlk, hn, ho, hr⟩ := hheld rfl
    exact sound_goto hlk ⟨hn, ho, hr, hf⟩ (by simp)
  | put hc =>
    obtain ⟨hlk, hn, ho, hr, hf⟩ := hheld rfl
    exact sound_goto (s := s.setPi _) hlk ⟨fun q hq => (hn.none_asleep (.inl hf) q hq).elim, ho, .inr hr⟩ (by simp)
  | putFails hc =>
    obtain ⟨hlk, hn, ho, -⟩ := hheld rfl
    refine sound_goto hlk ⟨fun d hd => ?_, fun _ _ _ => Nat.zero_le _, by simp⟩ (by simp)
    cases d with
    | nread => exact (hd rfl).elim
    | nwrite => exact hn
  | get hi hne hc =>
    obtain ⟨hlk, hh⟩ := hheld rfl
    have hno := Quiet.none_asleep hh (.inl hne)
    exact sound_goto (s := s.setPi _) hlk (fun q hq => (hno q hq).elim) (by simp)
  | getFails hi hne hc =>
    obtain ⟨hlk, hh⟩ := hheld rfl
    have hno := Quiet.none_asleep hh (.inl hne)
    refine sound_goto (s := s.setPi _) hlk ⟨fun d hd => ?_, fun _ _ _ => Nat.zero_le _, by simp⟩ (by simp)
    cases d with
    | nread => exact fun q hq => (hno q hq).elim
    | nwrite => exact (hd rfl).elim
  | read hi =>
    obtain ⟨hlk, hh⟩ := hheld rfl
    refine sound_goto hlk ⟨fun d hd => ?_, fun _ _ _ => Nat.zero_le _, by simp⟩ (by simp)
    cases d with
    | nread => exact hh
    | nwrite => exact (hd rfl).elim
  | setWrite =>
    obtain ⟨hlk, hh⟩ := hheld rfl
    refine sound_goto (s := s.setPi _) hlk ⟨fun d hd => ?_, fun _ _ _ => Nat.zero_le _, by simp⟩ (by simp)
    cases d with
    | nread => exact (hd rfl).elim
    | nwrite => exact hh .nwrite
  | setRead =>
    obtain ⟨hlk, hh⟩ := hheld rfl
    refine sound_goto (s := s.setPi _) hlk ⟨fun d hd => ?_, fun _ _ _ => Nat.zero_le _, by simp⟩ (by simp)
    cases d with
    | nread => exact hh .nread
    | nwrite => exact (hd rfl).elim
  | @wakeSelf c k =>
    obtain ⟨hlk, hd, hb, hk⟩ := hheld rfl
    refine sound_goto hlk ⟨hd, fun q hq hc => ?_, hk⟩ (by simp)
    have hqp : q ≠ p := fun he => not_asleep hl hpc (by simp) (by simp) (he ▸ hq)
    have := hb q hq hc
    have := Fin.val_ne_of_ne hqp
    omega
  | @wake c k q hpq hplock =>
    obtain ⟨hlk, hd, hb, hk⟩ := hheld rfl
    refine sound_goto (s := s.wake c q) ((wake_lk c).trans hlk) ⟨fun d hdc r hr => ?_, fun r hr hc => ?_, fun n i hn => ?_⟩ (by simp)
    · rw [wake_pi]
      exact hd d hdc r (asleep_of_wake hr)
    · rw [wake_pi] at hc
      have hrq : r ≠ q := fun he => asleep_wake hl hplock (he ▸ hr)
      have := hb r (asleep_of_wake hr) hc
      have := Fin.val_ne_of_ne hrq
      omega
    · rw [wake_pi]
      exact hk n i hn
  | @wokenSleep c j n i hj =>
    obtain ⟨hlk, hd, hb, hk⟩ := hheld rfl
    exact sound_goto hlk ⟨quiet_of_below hd hb hj, hk n i rfl⟩ (by simp)
  | wokenRet hj =>
    obtain ⟨hlk, hd, hb, -⟩ := hheld rfl
    exact sound_goto hlk (quiet_of_below hd hb hj) (by simp)
  | wokenClosed hj =>
    obtain ⟨hlk, hd, hb, -⟩ := hheld rfl
    exact sound_goto hlk (quiet_of_below hd hb hj) (by simp)
  | lockSelf hplock =>
    obtain ⟨hlk, hh⟩ := hheld rfl
    exact sound_goto (s := s.setPlock p _) hlk hh (by simp)
  | @drop l =>
    obtain ⟨-, hq, hc⟩ := hheld rfl
    intro c q hqc
    by_cases hqp : q = p
    · rw [hqp] at hqc
      rcases hqc with ⟨l', hl', rfl⟩ | ⟨hs, -⟩
      · rw [goto_pc] at hl'
        cases hl'
        exact hc
      · exact (hl.awake (by simp [hpc]) hs).elim
    · refine hq c q (hqc.imp_left fun hl' => ?_)
      rwa [goto_pc_of_ne hqp] at hl'
  | @mark l =>
    refine h.other rfl rfl (fun q c hq => ?_) fun q hq => goto_pc_of_ne (hother rfl q hq)
    by_cases hqp : q = p
    · subst hqp
      rcases hq with ⟨l', hl', -⟩ | ⟨-, hc⟩
      · rw [goto_pc] at hl'
        cases hl'
      · have : some l.chan = some c := by simpa [PipeSys.goto, setState, setChan] using hc
        exact .inl ⟨l, hpc, Option.some.inj this⟩
    · refine hq.imp (fun hl' => ?_) fun hs => ?_
      · rwa [goto_pc_of_ne hqp] at hl'
      · simpa [PipeSys.goto, setState, setChan, hqp] using hs
  | sched => exact h.other rfl rfl (fun q c hq => asleep_goto (s := s.setPlock p none) (by simp) hq) fun q hq => goto_pc_of_ne (hother rfl q hq)
  | tidy =>
    refine h.other rfl rfl (fun q c hq => ?_) fun q hq => goto_pc_of_ne (hother rfl q hq)
    have hq' := asleep_goto (s := s.setChan p none) (by simp) hq
    refine hq'.imp_right (And.imp_right fun hc => ?_)
    by_cases hqp : q = p
    · simp [setChan, hqp] at hc
    · simpa [setChan, hqp] using hc
  | unlockSelf => exact h.other rfl rfl (fun q c hq => asleep_goto (s := s.setPlock p none) (by simp) hq) fun q hq => goto_pc_of_ne (hother rfl q hq)
  | release =>
    obtain ⟨-, hh⟩ := hheld rfl
    exact fun c q hq => hh c q (asleep_goto (by simp) hq)
  | closed =>
    obtain ⟨-, hh⟩ := hheld rfl
    exact fun c q hq => hh c q (asleep_goto (by simp) hq)

theorem asleep_kill (h : (s.kill q).Asleep p c) : s.Asleep p c := by
  unfold kill at h
  dsimp only at h
  split at h
  · refine h.imp_right fun ⟨hs, hc⟩ => ⟨?_, hc⟩
    by_cases hpq : p = q
    · simp [setState, hpq] at hs
    · simpa [setState, hpq] using hs
  · exact h

theorem sound_step {e : PipeEv} (hl : Locks s) (h : s.Sound) (hg : s.Announced e) (hst : s.step e = some (.ok t)) : t.Sound := by
  have hout : ∀ p x, (s.pc p).holds = false → (∀ l, x ≠ .mark l) → (s.goto p x).Sound := by
    intro p x hp hx
    refine h.other rfl rfl (fun q c hq => asleep_goto hx hq) fun q hq => goto_pc_of_ne fun he => ?_
    have := (hl q).lk.1 hq
    rw [he, hp] at this
    cases this
  rcases step_cases hst with ⟨p, l, hpc, rfl⟩ | ⟨p, w, hpc, rfl⟩ | ⟨p, copied, ch, rfl, ht⟩ | ⟨p, l, hpc, hr, hpl, rfl⟩ | ⟨q, -, rfl⟩
  · exact hout p _ (by rw [hpc]; rfl) (by simp)
  · exact hout p _ (by rw [hpc]; rfl) (by simp)
  · exact sound_turn hl h hg ht
  · refine h.other rfl rfl (fun q c hq => ?_) fun q hq => goto_pc_of_ne fun he => ?_
    · have hq' := asleep_goto (s := (s.setPlock p (some p)).setState p .running) (by simp) hq
      refine hq'.imp_right fun ⟨hs, hc⟩ => ⟨?_, hc⟩
      by_cases hqp : q = p
      · simp [setState, hqp] at hs
      · simpa [setState, setPlock, hqp] using hs
    · have := (hl q).lk.1 hq
      rw [he, hpc] at this
      cases this
  · exact h.other kill_lk kill_pi (fun r c => asleep_kill) fun r _ => congrFun kill_pc r

theorem sound_of_reachable (h : ((Lts.ofFun Init step).guard Announced).Reachable s) : s.Sound := by
  suffices s.Locks ∧ s.Sound from this.2
  refine Lts.Reachable.invariant (I := fun s => s.Locks ∧ s.Sound) (fun s (h0 : s.Init) => ⟨h0.locks, ?_⟩) (fun s e t hs hst => ?_) h
  · unfold Sound
    rw [h0.lk]
    rintro c p (⟨l, hl, -⟩ | ⟨hs, -⟩)
    · rw [h0.pc] at hl
      cases hl
    · exact (h0.state p hs).elim
  · exact ⟨locks_step hs.1 hst.2, sound_step hs.1 hs.2 hst.1 hst.2⟩

end PipeSys

open PipeSys

/-- In the runs in which no writer is found killed while it owes a sleeping reader a `wakeup`: when `pi->lock` is free, a reader
sleeps only while the pipe is empty and has a writer, and a writer only while it is full and has a reader. -/
theorem pipe_wakeups {s : PipeSys} (h : ((Lts.ofFun PipeSys.Init PipeSys.step).guard Announced).Reachable s) (hlk : s.lk = none)
    (p : Slot) (hp : s.state p = .sleeping) :
    (s.chan p = some .nread → s.pi.nread = s.pi.nwrite ∧ s.pi.writeopen = true) ∧
      (s.chan p = some .nwrite → s.pi.nwrite = s.pi.nread + PIPESIZE ∧ s.pi.readopen = true) := by
  have hs := sound_of_reachable h
  unfold Sound at hs
  rw [hlk] at hs
  refine ⟨fun hc => ?_, fun hc => ?_⟩
  · simpa [Cond] using hs .nread p (.inr ⟨hp, hc⟩)
  · simpa [Cond] using hs .nwrite p (.inr ⟨hp, hc⟩)

/-- A process reads from the empty pipe and goes to sleep. -/
def sleepingReaderRun : List PipeEv :=
  .piperead reader 1 :: List.replicate 7 (.next reader true 65)

private def aliveTest (s : PipeSys) : PipeEv → Bool
  | .next p _ _ => !s.killed p
  | _ => true

theorem pipe_wakeups_sleepingReaderRun : ∃ s : PipeSys, s.state reader = .sleeping ∧ s.chan reader = some .nread ∧ s.lk = none ∧
    s.pi.nread = s.pi.nwrite ∧ s.pi.writeopen = true := by
  obtain ⟨s, hs, hp⟩ := Lts.Reachable.replay_any (I := PipeSys.Init) (f := PipeSys.step) (C := Announced) (c := aliveTest)
    (fun s e hc p copied ch n i he _ hk => by
      subst he
      simp [aliveTest, hk] at hc) (l := sleepingReaderRun) PipeSys.started_init
    (P := fun s => decide (s.state reader = .sleeping) && decide (s.chan reader = some .nread) && decide (s.lk = none)) (by decide)
  simp only [Bool.and_eq_true, decide_eq_true_eq] at hp
  obtain ⟨⟨h1, h2⟩, h3⟩ := hp
  have := (pipe_wakeups hs h3 reader h1).1 h2
  exact ⟨s, h1, h2, h3, this⟩

/-- Another process then writes two bytes and is killed after the first one. -/
def killedWriterRun : List PipeEv :=
  sleepingReaderRun ++ .pipewrite writer 2 :: (List.replicate 5 (.next writer true 65) ++ .kill writer :: List.replicate 3 (.next writer true 65))

/-- The writer returns without a `wakeup`: the reader sleeps although there is a byte, and `pi->lock` is free. -/
theorem killedWriter_loses : ¬∀ s : PipeSys, (Lts.ofFun PipeSys.Init PipeSys.step).Reachable s → s.lk = none →
    ∀ p, s.state p = .sleeping → s.chan p = some .nread → s.pi.nread = s.pi.nwrite ∧ s.pi.writeopen = true := by
  intro hall
  obtain ⟨s, hs, hp⟩ := Lts.Reachable.replay_any (I := PipeSys.Init) (f := PipeSys.step) (C := fun _ _ => True) (c := fun _ _ => true)
    (fun _ _ _ => trivial) (l := killedWriterRun) PipeSys.started_init
    (P := fun s => decide (s.state reader = .sleeping) && decide (s.chan reader = some .nread) && decide (s.lk = none) &&
      decide (s.pi.nread ≠ s.pi.nwrite)) (by decide)
  simp only [Bool.and_eq_true, decide_eq_true_eq] at hp
  obtain ⟨⟨⟨h1, h2⟩, h3⟩, h4⟩ := hp
  exact h4 (hall s hs.of_guard h3 reader h1 h2).1

end Xv6
