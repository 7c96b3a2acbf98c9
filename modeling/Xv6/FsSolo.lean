import Xv6.FsAlone

/-!
# A call that runs alone

`Solo` is a run of a process from inside a call to its end, while the others stand still.  The code of the call then runs over the view
(`solo_runs`); the disk stays as it is, and the blocks that the call logs are in the cache and not blocks of the log (`Base`, `Frame`).
The runs are those in which each copy from user memory is `CopySafe`: `writei` leaves without a `log_write` when `either_copyin` fails, so
a copy that fails after it has changed a block that is not in the header yet would leave the cache out of step with the disk.
-/

namespace Xv6

open Function (update)

variable {P : Type} [DecidableEq P]

namespace FsSys

variable {s s' u : FsSys P} {t : P} {G : P → Ghost} {C : Committing} {low : Nat}

/-! ### What stays -/

/-- The buffers are for the one device, or unused. -/
def Devs (s : FsSys P) : Prop := ∀ i, (s.io.buf i).dev = ROOTDEV ∨ (s.io.buf i).dev = 0

theorem Move.devs (h : s.Move t s') (hd : s.Devs) : s'.Devs := by
  have hset : ∀ (i : Fin NBUF) (b : Buf), b.dev = (s.io.buf i).dev ∨ b.dev = ROOTDEV → ∀ j, ((s.io.setBuf i b).buf j).dev = ROOTDEV ∨
      ((s.io.setBuf i b).buf j).dev = 0 := by
    intro i b hb j
    by_cases hj : j = i
    · subst hj
      rw [Store.setBuf_buf_self]
      rcases hb with hb | hb
      · rw [hb]
        exact hd j
      · exact .inl hb
    · rw [Store.setBuf_buf_ne _ hj]
      exact hd j
  cases h with
  | hit hst hc => exact hset _ _ (.inl (by rfl))
  | recycle hst hc h0 => exact hset _ _ (.inr (by rfl))
  | lock hst hl => exact hd
  | @fill i k hst =>
    show ∀ j, ((s.fillBuf i).buf j).dev = ROOTDEV ∨ ((s.fillBuf i).buf j).dev = 0
    unfold fillBuf
    split
    · exact hd
    · exact hset _ _ (.inl (by rfl))
  | data hst => exact hd
  | store hst => exact hset _ _ (.inl (by rfl))
  | logWrite hst hl => exact hset _ _ (.inl (by rfl))
  | bwrite hst hl => exact hd
  | brelse hst hl => exact hd
  | @rel i k hst =>
    intro j
    show ((s.io.release i).buf j).dev = ROOTDEV ∨ ((s.io.release i).buf j).dev = 0
    rw [Store.release_buf]
    exact hset i _ (.inl (by rfl)) j
  | bunpin hst => exact hset _ _ (.inl (by rfl))
  | readLog hst => exact hd
  | clearHead hst => exact hd

/-- The blocks in the header are few, they lie from `low` on, and the cache has them. -/
structure Logged (s : FsSys P) (low : Nat) : Prop where
  devs : s.Devs
  le : s.io.log.lh.length ≤ LOGSIZE
  lt : (s.io.log.lh.length : Int) ≤ s.io.log.size - 1
  home : ∀ b ∈ s.io.log.lh, low ≤ b.toNat
  cached : ∀ b ∈ s.io.log.lh, ∃ i, s.io.Caches ROOTDEV b i ∧ (s.io.buf i).valid = true

/-- What does not change while `t` moves outside `commit`. -/
structure Frame (s s' : FsSys P) (t : P) : Prop where
  disk : s'.io.disk = s.io.disk
  writes : s'.io.writes = s.io.writes
  start : s'.io.log.start = s.io.log.start
  size : s'.io.log.size = s.io.log.size
  dev : s'.io.log.dev = s.io.log.dev
  op : ∀ u, (s'.th u).op = (s.th u).op
  others : ∀ u, u ≠ t → s'.th u = s.th u

omit [DecidableEq P] in
theorem Frame.refl (s : FsSys P) (t : P) : Frame s s t := ⟨rfl, rfl, rfl, rfl, rfl, fun _ => rfl, fun _ _ => rfl⟩

omit [DecidableEq P] in
theorem Frame.trans (h : Frame s s' t) (h' : Frame s' u t) : Frame s u t :=
  ⟨h'.disk.trans h.disk, h'.writes.trans h.writes, h'.start.trans h.start, h'.size.trans h.size, h'.dev.trans h.dev,
    fun u => (h'.op u).trans (h.op u), fun u hu => (h'.others u hu).trans (h.others u hu)⟩

/-- A step of `t` that changes buffers, locks or the header. -/
theorem frame_goto (s' : FsSys P) (x : FsSt) (hth : s'.th = s.th) (hd : s'.io.disk = s.io.disk) (hw : s'.io.writes = s.io.writes)
    (hl : ∃ lh, s'.io.log = { s.io.log with lh := lh }) : Frame s (s'.goto t x) t := by
  obtain ⟨lh, hl⟩ := hl
  refine ⟨hd, hw, ?_, ?_, ?_, fun u => ?_, fun u hu => ?_⟩
  · show s'.io.log.start = _
    rw [hl]
  · show s'.io.log.size = _
    rw [hl]
  · show s'.io.log.dev = _
    rw [hl]
  · show (update s'.th t _ u).op = _
    rw [hth]
    by_cases hu : u = t
    · rw [hu, Function.update_self]
    · rw [Function.update_of_ne hu]
  · show update s'.th t _ u = _
    rw [hth, Function.update_of_ne hu]

omit [DecidableEq P] in
/-- A step that reads no block keeps the locked buffers valid. -/
theorem Filled.keep (h : s.Filled t) (hst : ∀ i k, (s.th t).st ≠ .fill i k)
    (hl : ∀ i, s'.lock i = some t → s.lock i = some t ∧ ((s.io.buf i).valid = true → (s'.io.buf i).valid = true)) : s'.Filled t := by
  intro i hi
  obtain ⟨hl, hv⟩ := hl i hi
  rcases h i hl with h | ⟨k, hk⟩
  · exact .inl (hv h)
  · exact absurd hk (hst i k)

omit [DecidableEq P] in
theorem Logged.keep (h : s.Logged low) (hd : s'.Devs) (hlog : s'.io.log = s.io.log)
    (hb : ∀ i, (s.io.buf i).blockno ∈ s.io.log.lh → (s.io.buf i).valid = true →
      (s'.io.buf i).valid = true ∧ (s'.io.buf i).dev = (s.io.buf i).dev ∧ (s'.io.buf i).blockno = (s.io.buf i).blockno) : s'.Logged low := by
  refine ⟨hd, by rw [hlog]; exact h.le, by rw [hlog]; exact h.lt, by rw [hlog]; exact h.home, fun b hb' => ?_⟩
  rw [hlog] at hb'
  obtain ⟨i, hc, hv⟩ := h.cached b hb'
  obtain ⟨h1, h2, h3⟩ := hb i (by rw [hc.2]; exact hb') hv
  exact ⟨i, ⟨h2.trans hc.1, h3.trans hc.2⟩, h1⟩

theorem Logged.goto (h : s.Logged low) (t : P) (x : FsSt) : (s.goto t x).Logged low := ⟨h.devs, h.le, h.lt, h.home, h.cached⟩

theorem length_absorb_le (l : List UInt32) (b : UInt32) : (absorb l b).length ≤ l.length + 1 := by
  by_cases hb : b ∈ l
  · rw [absorb_of_mem hb]
    exact Nat.le_succ _
  · rw [absorb_of_notMem hb, List.length_append, List.length_singleton]

omit [DecidableEq P] in
/-- A block is logged whose buffer is valid. -/
theorem Logged.logWrite (h : s.Logged low) {i : Fin NBUF} {lg : Log} (hl : s.io.log.logWrite (s.io.buf i).blockno = .ok lg)
    (hdev : (s.io.buf i).dev = ROOTDEV) (hv : (s.io.buf i).valid = true) (hlow : low ≤ (s.io.buf i).blockno.toNat) :
    (s.setIo (s.logged i lg)).Logged low := by
  have hbuf : ∀ j, (s.logged i lg).buf j = { s.io.buf j with refcnt := ((s.logged i lg).buf j).refcnt } := fun j => count_buf s i j _
  unfold Log.logWrite at hl
  split at hl
  · cases hl
  · rename_i hroom
    split at hl
    · cases hl
    · cases hl
      have hlen := length_absorb_le s.io.log.lh (s.io.buf i).blockno
      refine ⟨fun j => ?_, ?_, ?_, fun b hb => ?_, fun b hb => ?_⟩
      · show ((s.logged i _).buf j).dev = ROOTDEV ∨ ((s.logged i _).buf j).dev = 0
        rw [hbuf j]
        exact h.devs j
      · show (absorb s.io.log.lh _).length ≤ LOGSIZE
        omega
      · show ((absorb s.io.log.lh _).length : Int) ≤ s.io.log.size - 1
        omega
      · rcases mem_absorb.1 hb with rfl | hb
        · exact hlow
        · exact h.home b hb
      · rcases mem_absorb.1 hb with rfl | hb
        · refine ⟨i, ⟨?_, ?_⟩, ?_⟩
          · show ((s.logged i _).buf i).dev = _
            rw [hbuf i]
            exact hdev
          · show ((s.logged i _).buf i).blockno = _
            rw [hbuf i]
          · show ((s.logged i _).buf i).valid = _
            rw [hbuf i]
            exact hv
        · obtain ⟨j, hc, hjv⟩ := h.cached b hb
          refine ⟨j, ⟨?_, ?_⟩, ?_⟩
          · show ((s.logged i _).buf j).dev = _
            rw [hbuf j]
            exact hc.1
          · show ((s.logged i _).buf j).blockno = _
            rw [hbuf j]
            exact hc.2
          · show ((s.logged i _).buf j).valid = _
            rw [hbuf j]
            exact hjv

section

variable [Fintype P]

/-- What is known while `t` moves alone. -/
structure Base (s : FsSys P) (t : P) (low : Nat) : Prop where
  inv : ∃ G C, s.Inv G C
  quiet : ∀ u, (s.th u).op ≠ .commit
  filled : s.Filled t
  logged : s.Logged low

/-- The process changes the data of a buffer. -/
theorem Base.fillWith (h : s.Base t low) (hst : ∀ i k, (s.th t).st ≠ .fill i k) (i : Fin NBUF) (d : Block) (x : FsSt) :
    ((s.setIo (s.fillWith i d)).goto t x).Filled t ∧ ((s.setIo (s.fillWith i d)).goto t x).Logged low ∧
    Frame s ((s.setIo (s.fillWith i d)).goto t x) t := by
  have hbuf : ∀ j, ((s.fillWith i d).buf j).valid = (s.io.buf j).valid ∧ ((s.fillWith i d).buf j).dev = (s.io.buf j).dev ∧
      ((s.fillWith i d).buf j).blockno = (s.io.buf j).blockno := by
    intro j
    by_cases hj : j = i
    · subst hj
      simp [FsSys.fillWith]
    · simp [FsSys.fillWith, hj]
  have hdev : ((s.setIo (s.fillWith i d)).goto t x).Devs := by
    intro j
    show ((s.fillWith i d).buf j).dev = ROOTDEV ∨ ((s.fillWith i d).buf j).dev = 0
    rw [(hbuf j).2.1]
    exact h.logged.devs j
  exact ⟨h.filled.keep hst fun j hj => ⟨hj, fun hv => (hbuf j).1.trans hv⟩,
    h.logged.keep hdev (by rfl) fun j _ hv => ⟨(hbuf j).1.trans hv, (hbuf j).2⟩, frame_goto _ _ (by rfl) (by rfl) (by rfl) ⟨_, by rfl⟩⟩

/-- A step of the process. -/
theorem Base.move (h : s.Base t low) (hs : s.Safe t low) (hm : s.Move t s') : s'.Filled t ∧ s'.Logged low ∧ Frame s s' t := by
  obtain ⟨⟨G, C, hinv⟩, hno, hf, hlg⟩ := h
  have hcommit : ∀ {p : Prog Unit}, (s.th t).st = .run p → ¬∀ x, p.Fails x := by
    intro p hst hp
    unfold Safe at hs
    rw [rest_of_run hst] at hs
    exact hs [] (hp _)
  have hdev := hm.devs hlg.devs
  cases hm with
  | @hit b k i hst hc =>
    refine ⟨hf.keep (by simp [hst]) fun j hj => ⟨hj, fun hv => ?_⟩, hlg.keep hdev (by rfl) fun j _ hv => ?_,
      frame_goto _ _ (by rfl) (by rfl) (by rfl) ⟨_, by rfl⟩⟩
    · show ((s.count i _).buf j).valid = true
      rw [count_buf]
      exact hv
    · show ((s.count i _).buf j).valid = true ∧ ((s.count i _).buf j).dev = _ ∧ ((s.count i _).buf j).blockno = _
      rw [count_buf]
      exact ⟨hv, by rfl, by rfl⟩
  | @recycle b k i hst hc h0 =>
    have hbuf : ∀ j, j ≠ i → (s.assign i b).buf j = s.io.buf j := fun j hj => s.io.setBuf_buf_ne hj _
    obtain ⟨hl, -⟩ := hinv.unused (t := t) hno h0
    refine ⟨hf.keep (by simp [hst]) fun j hj => ⟨hj, fun hv => ?_⟩, hlg.keep hdev (by rfl) fun j hj hv => ?_,
      frame_goto _ _ (by rfl) (by rfl) (by rfl) ⟨_, by rfl⟩⟩
    · have hji : j ≠ i := by
        rintro rfl
        exact hl hj
      show ((s.assign i b).buf j).valid = true
      rw [hbuf j hji]
      exact hv
    · have hji : j ≠ i := by
        rintro rfl
        exact hinv.not_logged hno h0 hv hj
      show ((s.assign i b).buf j).valid = true ∧ ((s.assign i b).buf j).dev = _ ∧ ((s.assign i b).buf j).blockno = _
      rw [hbuf j hji]
      exact ⟨hv, by rfl, by rfl⟩
  | @lock i k hst hl =>
    refine ⟨fun j hj => ?_, hlg.keep hdev (by rfl) fun j _ hv => ⟨hv, by rfl, by rfl⟩, frame_goto _ _ (by rfl) (by rfl) (by rfl) ⟨_, by rfl⟩⟩
    by_cases hji : j = i
    · subst hji
      exact .inr ⟨k, by simp [goto]⟩
    · have hj' : s.lock j = some t := by
        have : update s.lock i (some t) j = some t := hj
        rwa [Function.update_of_ne hji] at this
      rcases hf j hj' with hv | ⟨k', hk⟩
      · exact .inl hv
      · rw [hst] at hk
        cases hk
  | @fill i k hst =>
    have hbuf : ∀ j, (s.io.buf j).valid = true → (s.fillBuf i).buf j = s.io.buf j := by
      intro j hv
      rw [fillBuf]
      split
      · rfl
      · rename_i hi
        have hji : j ≠ i := by
          rintro rfl
          exact hi hv
        exact s.io.setBuf_buf_ne hji _
    have hself : ((s.fillBuf i).buf i).valid = true := by
      rw [fillBuf]
      split
      · assumption
      · rw [Store.setBuf_buf_self]
    have hio : (s.fillBuf i).disk = s.io.disk ∧ (s.fillBuf i).writes = s.io.writes ∧ (s.fillBuf i).log = s.io.log := by
      rw [fillBuf]
      split
      · exact ⟨by rfl, by rfl, by rfl⟩
      · exact ⟨by rfl, by rfl, by rfl⟩
    refine ⟨fun j hj => .inl ?_, hlg.keep hdev hio.2.2 fun j _ hv => ?_, frame_goto _ _ (by rfl) hio.1 hio.2.1 ⟨_, hio.2.2⟩⟩
    · show ((s.fillBuf i).buf j).valid = true
      rcases hf j hj with hv | ⟨k', hk⟩
      · rw [hbuf j hv]
        exact hv
      · rw [hst] at hk
        cases hk
        exact hself
    · show ((s.fillBuf i).buf j).valid = true ∧ ((s.fillBuf i).buf j).dev = _ ∧ ((s.fillBuf i).buf j).blockno = _
      rw [hbuf j hv]
      exact ⟨hv, by rfl, by rfl⟩
  | data hst =>
    exact ⟨hf.keep (by simp [hst]) fun j hj => ⟨hj, id⟩, hlg.keep hdev (by rfl) fun j _ hv => ⟨hv, by rfl, by rfl⟩,
      frame_goto _ _ (by rfl) (by rfl) (by rfl) ⟨_, by rfl⟩⟩
  | @store i d k hst => exact Base.fillWith ⟨⟨G, C, hinv⟩, hno, hf, hlg⟩ (by simp [hst]) i d _
  | @logWrite i k lg hst hl =>
    obtain ⟨hlock, hlow⟩ := safe_logWrite hs hst
    have hv : (s.io.buf i).valid = true := by
      rcases hf i hlock with hv | ⟨k', hk⟩
      · exact hv
      · rw [hst] at hk
        cases hk
    refine ⟨hf.keep (by simp [hst]) fun j hj => ⟨hj, fun hv => ?_⟩, (hlg.logWrite hl (hinv.cache.dev i hv) hv hlow).goto t _,
      frame_goto _ _ (by rfl) (by rfl) (by rfl) ?_⟩
    · show ((s.logged i lg).buf j).valid = true
      rw [show (s.logged i lg).buf j = _ from count_buf s i j _]
      exact hv
    · unfold Log.logWrite at hl
      split at hl
      · cases hl
      · split at hl
        · cases hl
        · cases hl
          exact ⟨_, by rfl⟩
  | bwrite hst hl => exact absurd (fun _ => trivial) (hcommit hst)
  | @brelse i k hst hl =>
    refine ⟨hf.keep (by simp [hst]) fun j hj => ⟨?_, id⟩, hlg.keep hdev (by rfl) fun j _ hv => ⟨hv, by rfl, by rfl⟩,
      frame_goto _ _ (by rfl) (by rfl) (by rfl) ⟨_, by rfl⟩⟩
    have hj' : update s.lock i none j = some t := hj
    by_cases hji : j = i
    · rw [hji, Function.update_self] at hj'
      cases hj'
    · rwa [Function.update_of_ne hji] at hj'
  | @rel i k hst =>
    have hbuf : ∀ j, ((s.io.release i).buf j).valid = (s.io.buf j).valid ∧ ((s.io.release i).buf j).dev = (s.io.buf j).dev ∧
        ((s.io.release i).buf j).blockno = (s.io.buf j).blockno := by
      intro j
      rw [Store.release_buf]
      by_cases hj : j = i
      · subst hj
        simp
      · simp [hj]
    refine ⟨hf.keep (by simp [hst]) fun j hj => ⟨hj, fun hv => (hbuf j).1.trans hv⟩,
      hlg.keep hdev (Store.release_log ..) fun j _ hv => ⟨(hbuf j).1.trans hv, (hbuf j).2⟩,
      frame_goto _ _ (by rfl) (Store.release_disk ..) (Store.release_writes ..) ⟨_, Store.release_log ..⟩⟩
  | bunpin hst => exact absurd (fun _ => trivial) (hcommit hst)
  | readLog hst => exact absurd (fun _ => trivial) (hcommit hst)
  | clearHead hst => exact absurd (fun _ => trivial) (hcommit hst)

/-! ### A call -/

/-- A run of `t` alone to the end of its call, with `CopySafe` copies; it reads the given bytes from user memory. -/
inductive Solo (sb : Superblock) (t : P) : FsSys P → List UInt8 → FsSys P → Prop
  | done {s : FsSys P} (h : s.Idle t = true) : Solo sb t s [] s
  | next {s s' u : FsSys P} {src : List UInt8} (hs : s.step sb (.next t) = some (.ok s')) (h : Solo sb t s' src u) : Solo sb t s src u
  | copyin {s s' u : FsSys P} {src w : List UInt8} {i : Fin NBUF} {off m : Nat} {k : Bool → Prog Unit}
      (hst : (s.th t).st = .run (.copyin i off m k)) (hc : s.CopySafe (.copyin t w)) (hs : s.step sb (.copyin t w) = some (.ok s'))
      (h : Solo sb t s' src u) : Solo sb t s (copied m w src) u
  | copyout {s s' u : FsSys P} {src : List UInt8} {ok : Bool} (hs : s.step sb (.copyout t ok) = some (.ok s')) (h : Solo sb t s' src u) :
      Solo sb t s src u

omit [DecidableEq P] [Fintype P] in
theorem idle_iff : s.Idle t = true ↔ (s.th t).st = .run (.pure ()) := by
  unfold Idle
  constructor
  · intro h
    split at h
    · assumption
    · cases h
  · intro h
    rw [h]

omit [DecidableEq P] in
/-- A process between two calls has locked nothing. -/
theorem Inv.idle_lock (h : s.Inv G C) (hi : s.Idle t = true) (i : Fin NBUF) : s.lock i ≠ some t := by
  have hok := h.ok t
  rw [idle_iff.1 hi] at hok
  exact fun hl => h.held.lock t i hl (hok.1 i)

theorem Inv.idle_heldBy (h : s.Inv G C) (hi : s.Idle t = true) : s.heldBy t = fun _ => none := by
  funext i
  exact if_neg (h.idle_lock hi i)

/-- The call has not ended yet; its copies so far are `CopySafe`. -/
inductive Part (sb : Superblock) (t : P) : FsSys P → FsSys P → Prop
  | refl {s : FsSys P} : Part sb t s s
  | next {s s' u : FsSys P} (hs : s.step sb (.next t) = some (.ok s')) (h : Part sb t s' u) : Part sb t s u
  | copyin {s s' u : FsSys P} {w : List UInt8} {i : Fin NBUF} {off m : Nat} {k : Bool → Prog Unit}
      (hst : (s.th t).st = .run (.copyin i off m k)) (hc : s.CopySafe (.copyin t w)) (hs : s.step sb (.copyin t w) = some (.ok s'))
      (h : Part sb t s' u) : Part sb t s u
  | copyout {s s' u : FsSys P} {ok : Bool} (hs : s.step sb (.copyout t ok) = some (.ok s')) (h : Part sb t s' u) : Part sb t s u

/-- A step of the process, with the bytes that it reads. -/
theorem Base.step (h : s.Base t low) (hs : s.Safe t low) {e : FsEv P} {sb : Superblock} {f : List UInt8 → List UInt8} (hc : s.CopySafe e)
    (he : s.step sb e = some (.ok s')) (hk : s'.Filled t ∧ s'.Logged low ∧ Frame s s' t) (hsim : Sim s s' t low f) :
    s'.Base t low ∧ Frame s s' t ∧ s'.Safe t low ∧ ∀ src fin, s'.Ends t low src fin → s.Ends t low (f src) fin := by
  obtain ⟨G, C, hinv⟩ := h.inv
  obtain ⟨hf, hl, hfr⟩ := hk
  obtain ⟨hs', hends⟩ := hsim hs
  exact ⟨⟨hinv.step hc he, fun u => by rw [hfr.op u]; exact h.quiet u, hf, hl⟩, hfr, hs', hends⟩

theorem Base.next (h : s.Base t low) (hs : s.Safe t low) {sb : Superblock} (he : s.step sb (.next t) = some (.ok s')) :
    s'.Base t low ∧ Frame s s' t ∧ s'.Safe t low ∧ ∀ src fin, s'.Ends t low src fin → s.Ends t low src fin := by
  obtain ⟨G, C, hinv⟩ := h.inv
  have hm := next_move hinv.cache.lru he
  exact h.step hs (e := .next t) (f := id) trivial he (h.move hs hm) (hinv.move_sim h.quiet h.filled hm)

theorem Base.copyin (h : s.Base t low) (hs : s.Safe t low) {sb : Superblock} {i : Fin NBUF} {off m : Nat} {k : Bool → Prog Unit}
    {w : List UInt8} (hst : (s.th t).st = .run (.copyin i off m k)) (hc : s.CopySafe (.copyin t w))
    (he : s.step sb (.copyin t w) = some (.ok s')) :
    s'.Base t low ∧ Frame s s' t ∧ s'.Safe t low ∧ ∀ src fin, s'.Ends t low src fin → s.Ends t low (copied m w src) fin := by
  obtain ⟨G, C, hinv⟩ := h.inv
  have he' := he
  simp only [FsSys.step, hst] at he'
  split at he'
  · rename_i hw
    cases he'
    exact h.step hs hc he (h.fillWith (by simp [hst]) i _ _) (sim_copyin hinv.cache h.filled hst hw)
  · cases he'

theorem Base.copyout (h : s.Base t low) (hs : s.Safe t low) {sb : Superblock} {ok : Bool} (he : s.step sb (.copyout t ok) = some (.ok s')) :
    s'.Base t low ∧ Frame s s' t ∧ s'.Safe t low ∧ ∀ src fin, s'.Ends t low src fin → s.Ends t low src fin := by
  have he' := he
  simp only [FsSys.step] at he'
  split at he'
  · rename_i i off m k hst
    cases he'
    exact h.step hs (e := .copyout t ok) (f := id) trivial he ⟨h.filled.keep (by simp [hst]) fun j hj => ⟨hj, id⟩, h.logged.goto t _,
      frame_goto _ _ (by rfl) (by rfl) (by rfl) ⟨_, by rfl⟩⟩ (sim_copyout hst ok)
  · cases he'

theorem Part.frame {sb : Superblock} (hpart : Part sb t s u) (h : s.Base t low) (hs : s.Safe t low) : Frame s u t := by
  induction hpart with
  | @refl s => exact .refl s t
  | next he _ ih =>
    obtain ⟨hb, hfr, hs', -⟩ := h.next hs he
    exact hfr.trans (ih hb hs')
  | copyin hst hc he _ ih =>
    obtain ⟨hb, hfr, hs', -⟩ := h.copyin hs hst hc he
    exact hfr.trans (ih hb hs')
  | copyout he _ ih =>
    obtain ⟨hb, hfr, hs', -⟩ := h.copyout hs he
    exact hfr.trans (ih hb hs')

/-- A call that runs alone runs over the view. -/
theorem Solo.runs {sb : Superblock} {src : List UInt8} (hsolo : Solo sb t s src u) (h : s.Base t low) (hs : s.Safe t low) :
    u.Base t low ∧ Frame s u t ∧ u.Idle t = true ∧ s.Ends t low src ⟨u.view, fun _ => none, [], low⟩ := by
  induction hsolo with
  | @done s hi =>
    obtain ⟨G, C, hinv⟩ := h.inv
    refine ⟨h, .refl s t, hi, ?_⟩
    unfold Ends
    rw [rest_of_run (idle_iff.1 hi), hinv.idle_heldBy hi]
    exact ⟨by rfl, by rfl⟩
  | next he _ ih =>
    obtain ⟨hb, hfr, hs', hends⟩ := h.next hs he
    obtain ⟨hu, hfr', hi, hfin⟩ := ih hb hs'
    exact ⟨hu, hfr.trans hfr', hi, hends _ _ hfin⟩
  | copyin hst hc he _ ih =>
    obtain ⟨hb, hfr, hs', hends⟩ := h.copyin hs hst hc he
    obtain ⟨hu, hfr', hi, hfin⟩ := ih hb hs'
    exact ⟨hu, hfr.trans hfr', hi, hends _ _ hfin⟩
  | copyout he _ ih =>
    obtain ⟨hb, hfr, hs', hends⟩ := h.copyout hs he
    obtain ⟨hu, hfr', hi, hfin⟩ := ih hb hs'
    exact ⟨hu, hfr.trans hfr', hi, hends _ _ hfin⟩

end

end FsSys

end Xv6
