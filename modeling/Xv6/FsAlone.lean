import Xv6.FsClean
import Xv6.FsStore

/-!
# A process alone in the cache

`FsSys.view` are the contents of the blocks for code that uses the buffer cache: the data of a valid buffer, or else those on the disk.
Only a store changes it; `bget` may take a buffer from another block, but what is lost then is on the disk.  While one process moves
alone, outside `commit`, a step of it is a step of its code over the view, as in `Prog.Runs` (`Inv.move_sim`).
-/

namespace Xv6

open Function (update)

variable {P : Type} [DecidableEq P]

namespace FsSys

/-- The contents of a block. -/
def view (s : FsSys P) (b : UInt32) : Block :=
  match (List.finRange NBUF).find? fun i => (s.io.buf i).valid ∧ (s.io.buf i).blockno = b with
  | some i => (s.io.buf i).data
  | none => s.io.disk b

/-- The blocks of the buffers that the process has locked. -/
def heldBy (s : FsSys P) (t : P) (i : Fin NBUF) : Option UInt32 := if s.lock i = some t then some (s.io.buf i).blockno else none

variable {s s' : FsSys P} {t : P} {G : P → Ghost} {C : Committing} {low : Nat}

/-! ### The view -/

structure Shows (s : FsSys P) (v : UInt32 → Block) : Prop where
  valid : ∀ i, (s.io.buf i).valid = true → v (s.io.buf i).blockno = (s.io.buf i).data
  disk : ∀ b, (∀ i, (s.io.buf i).valid = true → (s.io.buf i).blockno ≠ b) → v b = s.io.disk b

omit [DecidableEq P] in
theorem Shows.view {v : UInt32 → Block} (h : s.Shows v) : s.view = v := by
  funext b
  rw [FsSys.view]
  cases hf : (List.finRange NBUF).find? fun i => (s.io.buf i).valid ∧ (s.io.buf i).blockno = b with
  | some i =>
    have hi : (s.io.buf i).valid = true ∧ (s.io.buf i).blockno = b := by simpa using List.find?_some hf
    dsimp only
    rw [← h.valid i hi.1, hi.2]
  | none =>
    dsimp only
    refine (h.disk b fun i hv hb => ?_).symm
    have := List.find?_eq_none.1 hf i (List.mem_finRange i)
    simp [hv, hb] at this

omit [DecidableEq P] in
theorem Cache.shows (h : s.Cache) : s.Shows s.view := by
  constructor
  · intro i hv
    rw [view]
    cases hf : (List.finRange NBUF).find? fun j => (s.io.buf j).valid ∧ (s.io.buf j).blockno = (s.io.buf i).blockno with
    | some j =>
      have hj : (s.io.buf j).valid = true ∧ (s.io.buf j).blockno = (s.io.buf i).blockno := by simpa using List.find?_some hf
      rw [h.unique j i (h.dev j hj.1) (h.dev i hv) hj.2]
    | none =>
      have := List.find?_eq_none.1 hf i (List.mem_finRange i)
      simp [hv] at this
  · intro b hb
    rw [view]
    cases hf : (List.finRange NBUF).find? fun i => (s.io.buf i).valid ∧ (s.io.buf i).blockno = b with
    | some i =>
      have hi : (s.io.buf i).valid = true ∧ (s.io.buf i).blockno = b := by simpa using List.find?_some hf
      exact absurd hi.2 (hb i hi.1)
    | none => rfl

omit [DecidableEq P] in
/-- Buffers that are valid and the disk stay. -/
theorem Cache.view_congr (h : s.Cache) (hv : ∀ i, (s'.io.buf i).valid = (s.io.buf i).valid)
    (hb : ∀ i, (s'.io.buf i).blockno = (s.io.buf i).blockno ∧ (s'.io.buf i).data = (s.io.buf i).data) (hd : s'.io.disk = s.io.disk) :
    s'.view = s.view := by
  refine Shows.view ⟨fun i hi => ?_, fun b hno => ?_⟩
  · rw [(hb i).1, (hb i).2]
    exact h.shows.valid i (by rwa [hv] at hi)
  · rw [hd]
    exact h.shows.disk b fun i hi => by rw [← (hb i).1]; exact hno i (by rwa [hv])

omit [DecidableEq P] in
/-- A valid buffer gets other data. -/
theorem Cache.view_write (h : s.Cache) {i : Fin NBUF} (hi : (s.io.buf i).valid = true) (d : Block) :
    (s.setIo (s.fillWith i d)).view = update s.view (s.io.buf i).blockno d := by
  have hbuf : ∀ j, j ≠ i → (s.setIo (s.fillWith i d)).io.buf j = s.io.buf j := fun j hj => s.io.setBuf_buf_ne hj _
  have hself : (s.setIo (s.fillWith i d)).io.buf i = { s.io.buf i with data := d } := s.io.setBuf_buf_self i _
  refine Shows.view ⟨fun j hj => ?_, fun b hno => ?_⟩
  · by_cases hji : j = i
    · rw [hji, hself, Function.update_self]
    · rw [hbuf j hji] at hj ⊢
      have hne : (s.io.buf j).blockno ≠ (s.io.buf i).blockno := fun he => hji (h.unique j i (h.dev j hj) (h.dev i hi) he)
      rw [Function.update_of_ne hne]
      exact h.shows.valid j hj
  · have hib : b ≠ (s.io.buf i).blockno := by
      have := hno i (by rw [hself]; exact hi)
      rw [hself] at this
      exact this.symm
    rw [Function.update_of_ne hib]
    refine h.shows.disk b fun j hj => ?_
    by_cases hji : j = i
    · rw [hji]
      exact hib.symm
    · have := hno j (by rw [hbuf j hji]; exact hj)
      rwa [hbuf j hji] at this

omit [DecidableEq P] in
/-- A buffer whose data are on the disk is given to another block. -/
theorem Cache.view_assign (h : s.Cache) {i : Fin NBUF} (b : UInt32)
    (hi : (s.io.buf i).valid = true → (s.io.buf i).data = s.io.disk (s.io.buf i).blockno) : (s.setIo (s.assign i b)).view = s.view := by
  have hbuf : ∀ j, j ≠ i → (s.setIo (s.assign i b)).io.buf j = s.io.buf j := fun j hj => s.io.setBuf_buf_ne hj _
  have hself : ((s.setIo (s.assign i b)).io.buf i).valid = false := by
    show ((s.assign i b).buf i).valid = false
    rw [assign, Store.setBuf_buf_self]
  refine Shows.view ⟨fun j hj => ?_, fun c hno => ?_⟩
  · have hji : j ≠ i := by
      rintro rfl
      rw [hself] at hj
      cases hj
    rw [hbuf j hji] at hj ⊢
    exact h.shows.valid j hj
  · by_cases hic : (s.io.buf i).valid = true ∧ (s.io.buf i).blockno = c
    · have := h.shows.valid i hic.1
      rw [hic.2] at this
      rw [this, hi hic.1, hic.2]
      rfl
    · refine h.shows.disk c fun j hj hjc => ?_
      by_cases hji : j = i
      · subst hji
        exact hic ⟨hj, hjc⟩
      · exact hno j (by rw [hbuf j hji]; exact hj) (by rw [hbuf j hji]; exact hjc)

omit [DecidableEq P] in
/-- A buffer is read from the disk. -/
theorem Cache.view_fill (h : s.Cache) {i : Fin NBUF} (hdev : (s.io.buf i).dev = ROOTDEV) : (s.setIo (s.fillBuf i)).view = s.view := by
  by_cases hv : (s.io.buf i).valid = true
  · have : s.setIo (s.fillBuf i) = s := by
      rw [fillBuf, if_pos hv]
      rfl
    rw [this]
  · have hbuf : ∀ j, j ≠ i → (s.setIo (s.fillBuf i)).io.buf j = s.io.buf j := by
      intro j hj
      show (s.fillBuf i).buf j = _
      rw [fillBuf, if_neg hv]
      exact s.io.setBuf_buf_ne hj _
    have hself : (s.setIo (s.fillBuf i)).io.buf i = { s.io.buf i with data := s.io.disk (s.io.buf i).blockno, valid := true } := by
      show (s.fillBuf i).buf i = _
      rw [fillBuf, if_neg hv]
      exact s.io.setBuf_buf_self i _
    have hdisk : (s.setIo (s.fillBuf i)).io.disk = s.io.disk := by
      show (s.fillBuf i).disk = _
      rw [fillBuf, if_neg hv]
      rfl
    have hother : ∀ j, (s.io.buf j).valid = true → (s.io.buf j).blockno ≠ (s.io.buf i).blockno := by
      intro j hj he
      have hji : j = i := h.unique j i (h.dev j hj) hdev he
      exact hv (hji ▸ hj)
    refine Shows.view ⟨fun j hj => ?_, fun b hno => ?_⟩
    · by_cases hji : j = i
      · rw [hji, hself]
        exact h.shows.disk _ hother
      · rw [hbuf j hji] at hj ⊢
        exact h.shows.valid j hj
    · rw [hdisk]
      refine h.shows.disk b fun j hj => ?_
      by_cases hji : j = i
      · exact absurd (hji ▸ hj) hv
      · have := hno j (by rw [hbuf j hji]; exact hj)
        rwa [hbuf j hji] at this

/-! ### The rest of the code -/

/-- What process `t` has still to run, and the buffers that it holds then. -/
def rest (s : FsSys P) (t : P) : Prog Unit × (Fin NBUF → Option UInt32) :=
  match (s.th t).st with
  | .run p => (p, s.heldBy t)
  | .wait i k => (k i, update (s.heldBy t) i (some (s.io.buf i).blockno))
  | .fill i k => (k i, s.heldBy t)
  | .rel _ k => (k, s.heldBy t)

/-- The rest of the code does not fail, whatever it reads from user memory. -/
def Safe (s : FsSys P) (t : P) (low : Nat) : Prop := ∀ src, ¬(s.rest t).1.Fails ⟨s.view, (s.rest t).2, src, low⟩

/-- The rest of the code reads `src` and may end in `fin`. -/
def Ends (s : FsSys P) (t : P) (low : Nat) (src : List UInt8) (fin : Seq) : Prop :=
  (s.rest t).1.Runs ⟨s.view, (s.rest t).2, src, low⟩ () fin

/-- A step of `t` is a step of its code over the view; `f` puts the bytes that the step reads in front of the others. -/
def Sim (s s' : FsSys P) (t : P) (low : Nat) (f : List UInt8 → List UInt8) : Prop :=
  s.Safe t low → s'.Safe t low ∧ ∀ src fin, s'.Ends t low src fin → s.Ends t low (f src) fin

/-- The buffers that the process has locked have been read. -/
def Filled (s : FsSys P) (t : P) : Prop := ∀ i, s.lock i = some t → (s.io.buf i).valid = true ∨ ∃ k, (s.th t).st = .fill i k

theorem rest_of_run {p : Prog Unit} (hst : (s.th t).st = .run p) : s.rest t = (p, s.heldBy t) := by rw [rest, hst]

theorem rest_goto_run (s : FsSys P) (t : P) (p : Prog Unit) : (s.goto t (.run p)).rest t = (p, s.heldBy t) := by
  simp only [rest, goto, Function.update_self]
  rfl

theorem rest_goto_wait (s : FsSys P) (t : P) (i : Fin NBUF) (k : Fin NBUF → Prog Unit) :
    (s.goto t (.wait i k)).rest t = (k i, update (s.heldBy t) i (some (s.io.buf i).blockno)) := by
  simp only [rest, goto, Function.update_self]
  rfl

theorem rest_goto_fill (s : FsSys P) (t : P) (i : Fin NBUF) (k : Fin NBUF → Prog Unit) : (s.goto t (.fill i k)).rest t = (k i, s.heldBy t) := by
  simp only [rest, goto, Function.update_self]
  rfl

theorem rest_goto_rel (s : FsSys P) (t : P) (i : Fin NBUF) (k : Prog Unit) : (s.goto t (.rel i k)).rest t = (k, s.heldBy t) := by
  simp only [rest, goto, Function.update_self]
  rfl

theorem view_goto (s : FsSys P) (t : P) (x : FsSt) : (s.goto t x).view = s.view := rfl

theorem sim_same (hv : s'.view = s.view) (hr : s'.rest t = s.rest t) : Sim s s' t low id := by
  intro hs
  unfold Safe Ends
  rw [hv, hr]
  exact ⟨hs, fun _ _ => id⟩

theorem sim_bread {b : UInt32} {k : Fin NBUF → Prog Unit} {i : Fin NBUF} (hst : (s.th t).st = .run (.bread b k)) (hv : s'.view = s.view)
    (hr : s'.rest t = (k i, update (s.heldBy t) i (some b))) (hi : ∀ c, s.heldBy t i = some c → c = b) : Sim s s' t low id := by
  intro hs
  unfold Safe at hs
  rw [rest_of_run hst] at hs
  have hfree : ∀ src, Seq.Free ⟨s.view, s.heldBy t, src, low⟩ b := fun src => by_contra fun h => hs src (.inl h)
  have hnone : s.heldBy t i = none := by
    cases hc : s.heldBy t i with
    | none => rfl
    | some c => exact absurd (hc.trans (congrArg some (hi c hc))) (hfree [] i)
  unfold Safe Ends
  rw [hv, hr, rest_of_run hst]
  refine ⟨fun src hf => hs src (.inr ⟨i, hnone, hf⟩), fun src fin he => ?_⟩
  exact ⟨i, hnone, hfree src, he⟩

/-- A held buffer is valid, and the view has its data. -/
theorem held_valid (hf : s.Filled t) (hst : ∀ i k, (s.th t).st ≠ .fill i k) {i : Fin NBUF} (hi : s.heldBy t i ≠ none) :
    s.heldBy t i = some (s.io.buf i).blockno ∧ (s.io.buf i).valid = true := by
  unfold heldBy at hi ⊢
  by_cases hl : s.lock i = some t
  · rw [if_pos hl]
    rcases hf i hl with hv | ⟨k, hk⟩
    · exact ⟨by rfl, hv⟩
    · exact absurd hk (hst i k)
  · rw [if_neg hl] at hi
    exact absurd rfl hi

theorem sim_data (hc : s.Cache) (hf : s.Filled t) {i : Fin NBUF} {k : Block → Prog Unit} (hst : (s.th t).st = .run (.data i k)) :
    Sim s (s.goto t (.run (k (s.io.buf i).data))) t low id := by
  intro hs
  unfold Safe Ends at *
  rw [rest_of_run hst] at hs
  obtain ⟨hb, hv⟩ := held_valid hf (by simp [hst]) (i := i) fun h => hs [] (.inl h)
  have hdata := hc.shows.valid i hv
  rw [view_goto, rest_goto_run, rest_of_run hst]
  refine ⟨fun src h => hs src (.inr ⟨_, hb, ?_⟩), fun src fin he => ⟨_, hb, ?_⟩⟩
  · show (k (s.view (s.io.buf i).blockno)).Fails _
    rw [hdata]
    exact h
  · show (k (s.view (s.io.buf i).blockno)).Runs _ () fin
    rw [hdata]
    exact he

/-- New data in a buffer leave the buffers with their blocks. -/
theorem heldBy_fillWith (s : FsSys P) (t : P) (i : Fin NBUF) (d : Block) : (s.setIo (s.fillWith i d)).heldBy t = s.heldBy t := by
  funext j
  by_cases hj : j = i
  · simp [heldBy, setIo, fillWith, hj]
  · simp [heldBy, setIo, fillWith, hj]

theorem sim_store (hc : s.Cache) (hf : s.Filled t) {i : Fin NBUF} {d : Block} {k : Prog Unit} (hst : (s.th t).st = .run (.store i d k)) :
    Sim s ((s.setIo (s.fillWith i d)).goto t (.run k)) t low id := by
  intro hs
  unfold Safe Ends at *
  rw [rest_of_run hst] at hs
  obtain ⟨hb, hv⟩ := held_valid hf (by simp [hst]) (i := i) fun h => hs [] (.inl h)
  rw [view_goto, hc.view_write hv, rest_goto_run, heldBy_fillWith, rest_of_run hst]
  exact ⟨fun src h => hs src (.inr ⟨_, hb, h⟩), fun src fin he => ⟨_, hb, he⟩⟩

/-- The bytes that are read when `w` has been copied of the `m` that were asked for. -/
def copied (m : Nat) (w src : List UInt8) : List UInt8 := if w.length = m then w ++ src else w

/-- `either_copyin` of `w`, where `m` bytes were asked for. -/
theorem sim_copyin (hc : s.Cache) (hf : s.Filled t) {i : Fin NBUF} {off m : Nat} {k : Bool → Prog Unit} {w : List UInt8}
    (hst : (s.th t).st = .run (.copyin i off m k)) (hw : w.length ≤ m) :
    Sim s ((s.setIo (s.fillWith i (overwrite (s.io.buf i).data off w))).goto t (.run (k (w.length = m)))) t low (copied m w) := by
  generalize hd : overwrite (s.io.buf i).data off w = d
  intro hs
  unfold Safe Ends at *
  rw [rest_of_run hst] at hs
  obtain ⟨hb, hv⟩ := held_valid hf (by simp [hst]) (i := i) fun h => hs [] (.inl h)
  have hdata := hc.shows.valid i hv
  rw [view_goto, hc.view_write hv, rest_goto_run, heldBy_fillWith, rest_of_run hst]
  unfold copied
  by_cases hm : w.length = m
  · subst hm
    -- the source begins with the bytes that are copied
    have htaken : ∀ src, Seq.taken ⟨s.view, s.heldBy t, w ++ src, low⟩ (s.io.buf i).blockno off w.length =
        ⟨update s.view (s.io.buf i).blockno d, s.heldBy t, src, low⟩ := by
      intro src
      simp only [Seq.taken, Seq.put, List.take_left, List.drop_left, hdata, hd]
    have hle : ∀ src : List UInt8, w.length ≤ (w ++ src).length := fun src => by simp
    rw [decide_eq_true (by rfl)]
    refine ⟨fun src h => hs (w ++ src) (.inr ⟨_, hb, ?_⟩), fun src fin he => ⟨_, hb, ?_⟩⟩
    · rw [if_pos (hle src), htaken]
      exact h
    · rw [if_pos rfl, if_pos (hle src), htaken]
      exact he
  · have hfail : ∀ src, ({ Seq.taken ⟨s.view, s.heldBy t, w, low⟩ (s.io.buf i).blockno off m with src := src } : Seq) =
        ⟨update s.view (s.io.buf i).blockno d, s.heldBy t, src, low⟩ := by
      intro src
      simp only [Seq.taken, Seq.put, List.take_of_length_le hw, hdata, hd]
    have hlt : ¬m ≤ w.length := by omega
    rw [decide_eq_false hm]
    refine ⟨fun src h => hs w (.inr ⟨_, hb, ?_⟩), fun src fin he => ⟨_, hb, ?_⟩⟩
    · rw [if_neg hlt]
      exact ⟨src, by rw [hfail]; exact h⟩
    · rw [if_neg hm, if_neg hlt]
      exact ⟨src, by rw [hfail]; exact he⟩

theorem sim_copyout {i : Fin NBUF} {off m : Nat} {k : Bool → Prog Unit} (hst : (s.th t).st = .run (.copyout i off m k)) (ok : Bool) :
    Sim s (s.goto t (.run (k ok))) t low id := by
  intro hs
  unfold Safe Ends at *
  rw [rest_of_run hst] at hs
  rw [view_goto, rest_goto_run, rest_of_run hst]
  exact ⟨fun src h => hs src (.inr ⟨ok, h⟩), fun src fin he => ⟨fun hi => hs src (.inl hi), ok, he⟩⟩

/-- The counts of the buffers, their order and the log change. -/
theorem Cache.recount (h : s.Cache) (io : Store) (hbuf : ∀ j, io.buf j = { s.io.buf j with refcnt := (io.buf j).refcnt })
    (hd : io.disk = s.io.disk) (t : P) : (s.setIo io).view = s.view ∧ (s.setIo io).heldBy t = s.heldBy t := by
  constructor
  · refine h.view_congr (fun j => ?_) (fun j => ?_) hd
    · show (io.buf j).valid = _
      rw [hbuf j]
    · show (io.buf j).blockno = _ ∧ (io.buf j).data = _
      rw [hbuf j]
      exact ⟨by rfl, by rfl⟩
  · funext j
    show (if s.lock j = some t then some (io.buf j).blockno else none) = _
    rw [hbuf j]
    rfl

omit [DecidableEq P] in
theorem count_buf (s : FsSys P) (i j : Fin NBUF) (n : Nat) :
    (s.count i n).buf j = { s.io.buf j with refcnt := ((s.count i n).buf j).refcnt } := by
  by_cases hj : j = i
  · subst hj
    simp [count]
  · simp [count, hj]

/-- Only blocks from `low` on are logged. -/
theorem safe_logWrite (hs : s.Safe t low) {i : Fin NBUF} {k : Prog Unit} (hst : (s.th t).st = .run (.logWrite i k)) :
    s.lock i = some t ∧ low ≤ (s.io.buf i).blockno.toNat := by
  unfold Safe at hs
  rw [rest_of_run hst] at hs
  have hlog : ∃ b, s.heldBy t i = some b ∧ low ≤ b.toNat := by_contra fun h => hs [] (.inl h)
  obtain ⟨b, hb, hle⟩ := hlog
  unfold heldBy at hb
  split at hb
  · rw [Option.some.inj hb]
    exact ⟨‹_›, hle⟩
  · cases hb

theorem sim_logWrite (hc : s.Cache) {i : Fin NBUF} {k : Prog Unit} (hst : (s.th t).st = .run (.logWrite i k)) (lg : Log) :
    Sim s ((s.setIo (s.logged i lg)).goto t (.run k)) t low id := by
  obtain ⟨hv, hh⟩ := hc.recount (s.logged i lg) (fun j => count_buf s i j _) (by rfl) t
  intro hs
  obtain ⟨hl, -⟩ := safe_logWrite hs hst
  unfold Safe Ends at *
  rw [rest_of_run hst] at hs
  rw [view_goto, hv, rest_goto_run, hh, rest_of_run hst]
  refine ⟨fun src h => hs src (.inr h), fun src fin he => ⟨?_, he⟩⟩
  show s.heldBy t i ≠ none
  rw [heldBy, if_pos hl]
  exact Option.some_ne_none _

theorem sim_brelse {i : Fin NBUF} {k : Prog Unit} (hst : (s.th t).st = .run (.brelse i k)) :
    Sim s ((s.setLock i none).goto t (.rel i k)) t low id := by
  have hheld : (s.setLock i none).heldBy t = update (s.heldBy t) i none := by
    funext j
    by_cases hj : j = i
    · simp [heldBy, setLock, hj]
    · simp [heldBy, setLock, hj]
  intro hs
  unfold Safe Ends at *
  rw [rest_of_run hst] at hs
  rw [view_goto, rest_goto_rel, hheld, rest_of_run hst]
  exact ⟨fun src h => hs src (.inr h), fun src fin he => ⟨fun h => hs [] (.inl h), he⟩⟩

/-- The steps that are only taken in `commit`. -/
theorem sim_commit {p : Prog Unit} (hst : (s.th t).st = .run p) (hp : ∀ x, p.Fails x) : Sim s s' t low id := by
  intro hs
  unfold Safe at hs
  rw [rest_of_run hst] at hs
  exact absurd (hp _) (hs [])

section

variable [Fintype P]

omit [DecidableEq P] in
/-- A block in the header is pinned. -/
theorem Inv.not_logged (h : s.Inv G C) (hno : ∀ u, (s.th u).op ≠ .commit) {i : Fin NBUF} (h0 : (s.io.buf i).refcnt = 0)
    (hv : (s.io.buf i).valid = true) : (s.io.buf i).blockno ∉ s.io.log.lh := by
  intro hlh
  obtain ⟨hp, -⟩ := h.ops.rest hno
  have hpin : pin s.io C.pins i = 1 := if_pos ⟨h.cache.dev i hv, by rw [hp, h.ops.lh]; exact hlh⟩
  have := h.refs i
  omega

omit [DecidableEq P] in
/-- Nobody refers to the buffer, so its data are on the disk. -/
theorem Inv.unused (h : s.Inv G C) (hno : ∀ u, (s.th u).op ≠ .commit) {i : Fin NBUF} (h0 : (s.io.buf i).refcnt = 0) :
    s.lock i ≠ some t ∧ ((s.io.buf i).valid = true → (s.io.buf i).data = s.io.disk (s.io.buf i).blockno) := by
  have hnone : ∀ u, (G u).held i = none := fun u => by_contra fun hu => h.refcnt_pos ⟨u, refers_of_held hu⟩ h0
  refine ⟨fun hl => h.held.lock t i hl (hnone t), fun hv => ?_⟩
  refine (h.clean i hv fun u b hu => ?_).resolve_right fun hlh => ?_
  · rw [hnone u] at hu
    cases hu
  · exact h.not_logged hno h0 hv (h.ops.lh ▸ hlh.1)

/-- A step of `t` outside `commit`. -/
theorem Inv.move_sim (h : s.Inv G C) (hno : ∀ u, (s.th u).op ≠ .commit) (hf : s.Filled t) (hm : s.Move t s') : Sim s s' t low id := by
  cases hm with
  | @hit b k i hst hc =>
    obtain ⟨hv, hh⟩ := h.cache.recount _ (fun j => count_buf s i j _) (by rfl) t
    refine sim_bread (i := i) hst (by rw [view_goto, hv]) ?_ fun c hci => ?_
    · rw [rest_goto_wait, hh]
      show (k i, update (s.heldBy t) i (some ((s.count i _).buf i).blockno)) = _
      rw [count_buf, ← hc.2]
    · unfold heldBy at hci
      split at hci
      · rw [← Option.some.inj hci, hc.2]
      · cases hci
  | @recycle b k i hst hc h0 =>
    obtain ⟨hl, hd⟩ := h.unused (t := t) hno h0
    have hheld : (s.setIo (s.assign i b)).heldBy t = s.heldBy t := by
      funext j
      by_cases hj : j = i
      · simp [heldBy, setIo, hj, hl]
      · simp [heldBy, setIo, assign, hj]
    refine sim_bread (i := i) hst (by rw [view_goto, h.cache.view_assign b hd]) ?_ fun c hci => ?_
    · rw [rest_goto_wait, hheld]
      show (k i, update (s.heldBy t) i (some ((s.assign i b).buf i).blockno)) = _
      rw [assign, Store.setBuf_buf_self]
    · rw [heldBy, if_neg hl] at hci
      cases hci
  | @lock i k hst hl =>
    have hheld : (s.setLock i (some t)).heldBy t = update (s.heldBy t) i (some (s.io.buf i).blockno) := by
      funext j
      by_cases hj : j = i
      · simp [heldBy, setLock, hj]
      · simp [heldBy, setLock, hj]
    refine sim_same (by rfl) ?_
    rw [rest_goto_fill, hheld, rest, hst]
  | @fill i k hst =>
    have hok := h.ok t
    rw [hst] at hok
    obtain ⟨b, hb⟩ := hok.1
    have hheld : (s.setIo (s.fillBuf i)).heldBy t = s.heldBy t := by
      funext j
      by_cases hj : j = i
      · by_cases hv : (s.io.buf i).valid = true
        · simp [heldBy, setIo, fillBuf, hj, hv]
        · simp [heldBy, setIo, fillBuf, hj, hv]
      · by_cases hv : (s.io.buf i).valid = true
        · simp [heldBy, setIo, fillBuf, hv]
        · simp [heldBy, setIo, fillBuf, hj, hv]
    refine sim_same (by rw [view_goto, h.cache.view_fill (h.held.held t i b false hb).2.1]) ?_
    rw [rest_goto_run, hheld, rest, hst]
  | data hst => exact sim_data h.cache hf hst
  | store hst => exact sim_store h.cache hf hst
  | logWrite hst hl => exact sim_logWrite h.cache hst _
  | bwrite hst hl => exact sim_commit hst fun _ => trivial
  | brelse hst hl => exact sim_brelse hst
  | @rel i k hst =>
    have hbuf : ∀ j, (s.io.release i).buf j = { s.io.buf j with refcnt := ((s.io.release i).buf j).refcnt } := by
      intro j
      rw [Store.release_buf]
      by_cases hj : j = i
      · subst hj
        simp
      · simp [hj]
    obtain ⟨hv, hh⟩ := h.cache.recount _ hbuf (Store.release_disk ..) t
    refine sim_same (by rw [view_goto, hv]) ?_
    rw [rest_goto_run, hh, rest, hst]
  | bunpin hst => exact sim_commit hst fun _ => trivial
  | readLog hst => exact sim_commit hst fun _ => trivial
  | clearHead hst => exact sim_commit hst fun _ => trivial

end

end FsSys

end Xv6
