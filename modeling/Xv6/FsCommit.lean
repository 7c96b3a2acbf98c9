import Xv6.FsSolo
import Xv6.LogCrash

/-!
# A commit that runs alone

`Prog.io` runs a program on the cache, the log and the disk in one go, as in `Bio` and `LogDisk`.  A process that moves alone does the
same step by step (`next_io`), so `end_op`'s `commit` is the `commit` of the log (`commit_io`).  Wherever it stands, the disk is one
that a boot makes old or new.
-/

namespace Xv6

open Function (update)

/-! ### Programs in one go -/

/-- Read a buffer that is not valid. -/
def fillIo (i : Fin NBUF) : Io Unit := fun s =>
  .ok () (if (s.buf i).valid then s else s.setBuf i { s.buf i with data := s.disk (s.buf i).blockno, valid := true })

theorem bread_eq (dev b : UInt32) : bread dev b = (do let i ← bget dev b; fillIo i; return i) := by
  funext s
  show EStateM.bind (bget dev b) _ s = EStateM.bind (bget dev b) _ s
  unfold EStateM.bind
  cases bget dev b s with
  | error msg t => rfl
  | ok i t =>
    show (if !(t.buf i).valid then (do
        virtioDiskRw i false
        modify fun s => s.setBuf i { s.buf i with valid := true }
        return i : Io (Fin NBUF)) else (pure i : Io (Fin NBUF))) t = .ok i (if (t.buf i).valid then t
      else t.setBuf i { t.buf i with data := t.disk (t.buf i).blockno, valid := true })
    cases (t.buf i).valid with
    | true => rfl
    | false =>
      have hset : (t.setBuf i { t.buf i with data := t.disk (t.buf i).blockno }).buf i =
          { t.buf i with data := t.disk (t.buf i).blockno } := Store.setBuf_buf_self ..
      show EStateM.Result.ok i ((t.setBuf i { t.buf i with data := t.disk (t.buf i).blockno }).setBuf i
        { (t.setBuf i { t.buf i with data := t.disk (t.buf i).blockno }).buf i with valid := true }) = _
      rw [hset, Store.setBuf_setBuf]
      rfl

namespace Prog

variable {α β : Type}

def io : Prog α → Io α
  | .pure a => Pure.pure a
  | .panic msg => throw msg
  | .bread b k => do (k (← Xv6.bread ROOTDEV b)).io
  | .data i k => do (k ((← get).buf i).data).io
  | .store i d k => do setData i d; k.io
  | .logWrite i k => do Xv6.logWrite i; k.io
  | .bwrite i k => do Xv6.bwrite i; k.io
  | .brelse i k => do Xv6.brelse i; k.io
  | .bunpin i k => do Xv6.bunpin i; k.io
  | .readLog k => do (k (← get).log).io
  | .clearHead k => do clearHeader; k.io
  -- `commit` copies nothing from or to user memory
  | .copyin .. | .copyout .. => throw "copy"

theorem io_bind (p : Prog α) (f : α → Prog β) : (p >>= f).io = p.io >>= fun a => (f a).io := by
  change (p.bind f).io = _
  induction p with
  | pure a => rfl
  | panic msg => rfl
  | bread b k ih => simp only [bind, io, ih, bind_assoc]
  | data i k ih => simp only [bind, io, ih, bind_assoc]
  | store i d k ih => simp only [bind, io, ih, bind_assoc]
  | logWrite i k ih => simp only [bind, io, ih, bind_assoc]
  | bwrite i k ih => simp only [bind, io, ih, bind_assoc]
  | brelse i k ih => simp only [bind, io, ih, bind_assoc]
  | bunpin i k ih => simp only [bind, io, ih, bind_assoc]
  | readLog k ih => simp only [bind, io, ih, bind_assoc]
  | clearHead k ih => simp only [bind, io, ih, bind_assoc]
  | copyin i off m k ih => rfl
  | copyout i off m k ih => rfl

end Prog

/-- From `s` to `t` blocks were written to the disk, and in the log only the header has changed. -/
structure Store.Grows (s t : Store) : Prop where
  writes : ∃ ws, t.writes = s.writes ++ ws ∧ t.disk = applyWrites s.disk ws
  log : ∃ lh, t.log = { s.log with lh := lh }

namespace Store

variable {s t u : Store}

/-- The buffers and their order change, or the header. -/
theorem Grows.of_eq (hw : t.writes = s.writes) (hd : t.disk = s.disk) (hl : ∃ lh, t.log = { s.log with lh := lh }) : s.Grows t :=
  ⟨⟨[], by rw [hw, List.append_nil], by rw [hd, applyWrites_nil]⟩, hl⟩

theorem Grows.trans (h : s.Grows t) (h' : t.Grows u) : s.Grows u := by
  obtain ⟨⟨ws, hw, hd⟩, lh, hl⟩ := h
  obtain ⟨⟨vs, hw', hd'⟩, lh', hl'⟩ := h'
  refine ⟨⟨ws ++ vs, ?_, ?_⟩, lh', ?_⟩
  · rw [hw', hw, List.append_assoc]
  · rw [hd', hd, applyWrites_append]
  · rw [hl', hl]

end Store

open Store

/-- The program only grows the writes, whether it returns or panics. -/
def Grow {α : Type} (m : Io α) : Prop := ∀ s, wp m (fun _ => Store.Grows s) (fun _ => Store.Grows s) s

theorem grow_seq {α β : Type} {m : Io α} {f : α → Io β} (hm : Grow m) (hf : ∀ a, Grow (f a)) : Grow (m >>= f) := by
  intro s
  rw [wp_bind]
  refine wp_mono (hm s) (fun a t ht => ?_) fun _ _ => id
  exact wp_mono (hf a t) (fun _ _ => ht.trans) fun _ _ => ht.trans

theorem grow_modify {f : Store → Store} (h : ∀ s : Store, s.Grows (f s)) : Grow (modify f) := h

theorem grow_bget (dev b : UInt32) : Grow (bget dev b) := by
  intro s
  unfold wp bget
  cases s.lru.find? fun i => s.Caches dev b i with
  | some i => exact .of_eq (by rfl) (by rfl) ⟨_, by rfl⟩
  | none =>
    cases s.lru.reverse.find? fun i => (s.buf i).refcnt = 0 with
    | some i => exact .of_eq (by rfl) (by rfl) ⟨_, by rfl⟩
    | none => exact .of_eq (by rfl) (by rfl) ⟨_, by rfl⟩

theorem grow_fillIo (i : Fin NBUF) : Grow (fillIo i) := by
  intro s
  unfold wp fillIo
  dsimp only
  split
  · exact .of_eq (by rfl) (by rfl) ⟨_, by rfl⟩
  · exact .of_eq (by rfl) (by rfl) ⟨_, by rfl⟩

theorem grow_pure {α : Type} (a : α) : Grow (pure a : Io α) := fun _ => .of_eq (by rfl) (by rfl) ⟨_, by rfl⟩

theorem grow_throw {α : Type} (msg : String) : Grow (throw msg : Io α) := fun _ => .of_eq (by rfl) (by rfl) ⟨_, by rfl⟩

theorem grow_get : Grow (get : Io Store) := fun _ => .of_eq (by rfl) (by rfl) ⟨_, by rfl⟩

theorem grow_bread (dev b : UInt32) : Grow (bread dev b) := by
  rw [bread_eq]
  exact grow_seq (grow_bget dev b) fun i => grow_seq (grow_fillIo i) fun _ => grow_pure i

theorem grow_bwrite (i : Fin NBUF) : Grow (bwrite i) := grow_modify fun s => by
  simp only [↓reduceIte]
  exact ⟨⟨[_], by rfl, by rfl⟩, _, by rfl⟩

theorem grow_logWrite (i : Fin NBUF) : Grow (logWrite i) := by
  intro s
  simp only [logWrite, wp_bind, wp_get]
  cases hl : s.log.logWrite (s.buf i).blockno with
  | error msg => exact .of_eq (by rfl) (by rfl) ⟨_, by rfl⟩
  | ok lg =>
    have hlog : ∃ lh, lg = { s.log with lh := lh } := by
      unfold Log.logWrite at hl
      split at hl
      · cases hl
      · split at hl
        · cases hl
        · cases hl
          exact ⟨_, by rfl⟩
    by_cases hm : (s.buf i).blockno ∈ s.log.lh
    · simp only [hm, not_true_eq_false, if_false]
      exact .of_eq (by rfl) (by rfl) hlog
    · simp only [hm, not_false_eq_true, if_true]
      exact .of_eq (by rfl) (by rfl) hlog

theorem Prog.grow {α : Type} (p : Prog α) : Grow p.io := by
  induction p with
  | pure a => exact grow_pure a
  | panic msg => exact grow_throw msg
  | bread b k ih => exact grow_seq (grow_bread ROOTDEV b) ih
  | data i k ih => exact grow_seq grow_get fun s => ih _
  | store i d k ih => exact grow_seq (grow_modify fun s => .of_eq (by rfl) (by rfl) ⟨_, by rfl⟩) fun _ => ih
  | logWrite i k ih => exact grow_seq (grow_logWrite i) fun _ => ih
  | bwrite i k ih => exact grow_seq (grow_bwrite i) fun _ => ih
  | brelse i k ih =>
    refine grow_seq (grow_modify fun s => ?_) fun _ => ih
    exact .of_eq (release_writes ..) (release_disk ..) ⟨_, release_log ..⟩
  | bunpin i k ih => exact grow_seq (grow_modify fun s => .of_eq (by rfl) (by rfl) ⟨_, by rfl⟩) fun _ => ih
  | readLog k ih => exact grow_seq grow_get fun s => ih _
  | clearHead k ih => exact grow_seq (grow_modify fun s => .of_eq (by rfl) (by rfl) ⟨_, by rfl⟩) fun _ => ih
  | copyin i off m k ih => exact grow_throw _
  | copyout i off m k ih => exact grow_throw _

/-! ### The same, step by step -/

namespace FsSys

variable {P : Type} [DecidableEq P] {s s' u : FsSys P} {t : P}

/-- What process `t` has still to do. -/
def restIo (s : FsSys P) (t : P) : Io Unit :=
  match (s.th t).st with
  | .run p => p.io
  | .wait i k | .fill i k => do fillIo i; (k i).io
  | .rel i k => do brelse i; k.io

omit [DecidableEq P] in
theorem restIo_of_run {p : Prog Unit} (hst : (s.th t).st = .run p) : s.restIo t = p.io := by rw [restIo, hst]

theorem restIo_goto_run (s : FsSys P) (t : P) (p : Prog Unit) : (s.goto t (.run p)).restIo t = p.io := by
  simp only [restIo, goto, Function.update_self]

theorem lift_ok {α : Type} {m : Io α} {x : α → FsSt} (h : s.lift t m x = .ok s') :
    ∃ a io, m s.io = .ok a io ∧ s' = (s.setIo io).goto t (x a) := by
  unfold lift at h
  split at h
  · rename_i a io hm
    cases h
    exact ⟨a, io, hm, by rfl⟩
  · cases h

/-- A call of `bio.c` or `log.c` and then the rest. -/
theorem lift_io {m : Io Unit} {k : Prog Unit} (h : s.lift t m (fun _ => .run k) = .ok s') :
    (do m; k.io) s.io = s'.restIo t s'.io := by
  obtain ⟨a, io, hm, rfl⟩ := lift_ok h
  rw [restIo_goto_run]
  show EStateM.bind m (fun _ => k.io) s.io = k.io io
  rw [EStateM.bind, hm]

/-- A step of the process is part of what it has to do. -/
theorem next_io (h : s.next t = some (.ok s')) : s.restIo t s.io = s'.restIo t s'.io := by
  unfold next at h
  split at h
  · rename_i p hst
    rw [restIo_of_run hst]
    cases p with
    | pure a => cases h
    | panic msg => cases h
    | copyin i off m k => cases h
    | copyout i off m k => cases h
    | bread b k =>
      obtain ⟨i, io, hm, rfl⟩ := lift_ok (Option.some.inj h)
      have hrest : ((s.setIo io).goto t (.wait i k)).restIo t = (do fillIo i; (k i).io) := by
        simp only [restIo, goto, Function.update_self]
      rw [hrest, Prog.io, bread_eq]
      show EStateM.bind (EStateM.bind (bget ROOTDEV b) _) _ s.io = _
      simp only [EStateM.bind, hm]
      rfl
    | data i k =>
      cases h
      rw [restIo_goto_run]
      rfl
    | store i d k => exact lift_io (Option.some.inj h)
    | logWrite i k => exact lift_io (Option.some.inj h)
    | bwrite i k =>
      simp only [exec] at h
      split at h
      · exact lift_io (Option.some.inj h)
      · cases h
    | brelse i k =>
      simp only [exec] at h
      split at h
      · cases h
        simp only [restIo, goto, Function.update_self]
        rfl
      · cases h
    | bunpin i k => exact lift_io (Option.some.inj h)
    | readLog k =>
      cases h
      rw [restIo_goto_run]
      rfl
    | clearHead k => exact lift_io (Option.some.inj h)
  · rename_i i k hst
    split at h
    · cases h
      simp only [restIo, hst, goto, Function.update_self]
    · cases h
  · rename_i i k hst
    cases h
    simp only [restIo, hst, goto, Function.update_self]
    rfl
  · rename_i i k hst
    cases h
    simp only [restIo, hst, goto, Function.update_self]
    rfl

end FsSys

/-! ### `commit` -/

namespace Fs

theorem writeLogFrom_io {lg : Log} (hdev : lg.dev = ROOTDEV) (tail : Nat) (bs : List UInt32) :
    (writeLogFrom lg tail bs).io = Xv6.writeLogFrom lg tail bs := by
  induction bs generalizing tail with
  | nil => rfl
  | cons b bs ih =>
    simp only [Xv6.writeLogFrom, writeLogEntry, hdev, bind_assoc, ← ih]
    rfl

theorem installFrom_io {lg : Log} (hdev : lg.dev = ROOTDEV) (tail : Nat) (bs : List UInt32) :
    (installFrom lg tail bs).io = Xv6.installFrom lg false tail bs := by
  induction bs generalizing tail with
  | nil => rfl
  | cons b bs ih =>
    simp only [Xv6.installFrom, installEntry, hdev, bind_assoc, ← ih]
    rfl

theorem seq_congr {m m' f f' : Io Unit} {s : Store} (hm : Grow m) (hdev : s.log.dev = ROOTDEV) (h : m s = m' s)
    (hf : ∀ t : Store, t.log.dev = ROOTDEV → f t = f' t) : (do m; f) s = (do m'; f') s := by
  show EStateM.bind m (fun _ => f) s = EStateM.bind m' (fun _ => f') s
  have hgrow := hm s
  unfold Xv6.wp at hgrow
  rw [EStateM.bind, EStateM.bind, ← h]
  cases hr : m s with
  | error msg t => rfl
  | ok a t =>
    rw [hr] at hgrow
    obtain ⟨lh, hl⟩ := hgrow.log
    exact hf t (by rw [hl]; exact hdev)

theorem writeLog_io {s : Store} (hdev : s.log.dev = ROOTDEV) : writeLog.io s = Xv6.writeLog s := by
  show (writeLogFrom s.log 0 s.log.lh).io s = Xv6.writeLogFrom s.log 0 s.log.lh s
  rw [writeLogFrom_io hdev]

theorem installTrans_io {s : Store} (hdev : s.log.dev = ROOTDEV) : installTrans.io s = Xv6.installTrans false s := by
  show (installFrom s.log 0 s.log.lh).io s = Xv6.installFrom s.log false 0 s.log.lh s
  rw [installFrom_io hdev]

theorem writeHead_io {s : Store} (hdev : s.log.dev = ROOTDEV) : writeHead.io s = Xv6.writeHead s := by
  show (do
    let buf ← bread s.log.start
    store buf (putHeader (← data buf) s.log.lh)
    bwrite buf
    brelse buf : Prog Unit).io s = (do
      let buf ← Xv6.bread s.log.dev s.log.start
      setData buf (putHeader ((← get).buf buf).data s.log.lh)
      Xv6.bwrite buf
      Xv6.brelse buf : Io Unit) s
  rw [hdev]
  rfl

/-- The code of `end_op`'s `commit` is the `commit` of the log. -/
theorem commit_io {s : Store} (hdev : s.log.dev = ROOTDEV) : commit.io s = Xv6.commit s := by
  show (if s.log.lh.length > 0 then do writeLog; writeHead; installTrans; clearHead; writeHead else pure () : Prog Unit).io s =
    (if s.log.lh.length > 0 then do Xv6.writeLog; Xv6.writeHead; Xv6.installTrans false; clearHeader; Xv6.writeHead
      else pure () : Io Unit) s
  by_cases hlh : s.log.lh.length > 0
  · rw [if_pos hlh, if_pos hlh]
    simp only [Prog.io_bind]
    refine seq_congr (Prog.grow _) hdev (writeLog_io hdev) fun t₁ h₁ => ?_
    refine seq_congr (Prog.grow _) h₁ (writeHead_io h₁) fun t₂ h₂ => ?_
    refine seq_congr (Prog.grow _) h₂ (installTrans_io h₂) fun t₃ h₃ => ?_
    exact seq_congr (Prog.grow _) h₃ (by rfl) fun t₄ h₄ => writeHead_io h₄
  · rw [if_neg hlh, if_neg hlh]
    rfl

end Fs

/-! ### A commit, step by step -/

namespace FsSys

variable {P : Type} [DecidableEq P] {s s' u : FsSys P} {t : P} {G : P → Ghost} {C : Committing} {v : UInt32 → Block}

theorem Move.grows (h : s.Move t s') : s.io.Grows s'.io := by
  cases h with
  | @fill i k hst =>
    show s.io.Grows (s.fillBuf i)
    unfold fillBuf
    split
    · exact .of_eq (by rfl) (by rfl) ⟨_, by rfl⟩
    · exact .of_eq (by rfl) (by rfl) ⟨_, by rfl⟩
  | @logWrite i k lg hst hl =>
    refine .of_eq (by rfl) (by rfl) ?_
    unfold Log.logWrite at hl
    split at hl
    · cases hl
    · split at hl
      · cases hl
      · cases hl
        exact ⟨_, by rfl⟩
  | bwrite hst hl => exact ⟨⟨[_], by rfl, by rfl⟩, _, by rfl⟩
  | @rel i k hst => exact .of_eq (release_writes ..) (release_disk ..) ⟨_, release_log ..⟩
  | _ => exact .of_eq (by rfl) (by rfl) ⟨_, by rfl⟩

omit [DecidableEq P] in
theorem restIo_grow (s : FsSys P) (t : P) : Grow (s.restIo t) := by
  unfold restIo
  split
  · exact Prog.grow _
  · exact grow_seq (grow_fillIo _) fun _ => Prog.grow _
  · exact grow_seq (grow_fillIo _) fun _ => Prog.grow _
  · refine grow_seq (grow_modify fun x => ?_) fun _ => Prog.grow _
    exact .of_eq (release_writes ..) (release_disk ..) ⟨_, release_log ..⟩

/-- Steps of process `t` alone that copy nothing from or to user memory. -/
inductive Steps (sb : Superblock) (t : P) : FsSys P → FsSys P → Prop
  | refl {s : FsSys P} : Steps sb t s s
  | head {s s' u : FsSys P} (hs : s.step sb (.next t) = some (.ok s')) (h : Steps sb t s' u) : Steps sb t s u

section

variable [Fintype P] {sb : Superblock}

/-- What has been done so far is part of what the process had to do. -/
theorem Steps.io (h : Steps sb t s u) (hinv : ∃ G C, s.Inv G C) :
    (∃ G C, u.Inv G C) ∧ s.restIo t s.io = u.restIo t u.io ∧ s.io.Grows u.io ∧ (s.Devs → u.Devs) ∧
      (∀ w, (u.th w).op = (s.th w).op) ∧ ∀ w, w ≠ t → u.th w = s.th w := by
  induction h with
  | refl => exact ⟨hinv, by rfl, .of_eq (by rfl) (by rfl) ⟨_, by rfl⟩, id, fun _ => by rfl, fun _ _ => by rfl⟩
  | @head s s' u hs _ ih =>
    obtain ⟨G, C, hI⟩ := hinv
    have hm := next_move hI.cache.lru hs
    obtain ⟨hu, hio, hg, hd, hop, hth⟩ := ih (hI.step (e := .next t) trivial hs)
    have hmove : ∀ w, (s'.th w).op = (s.th w).op ∧ (w ≠ t → s'.th w = s.th w) := by
      intro w
      have hgoto : ∀ (x : FsSys P) (y : FsSt), x.th = s.th → ((x.goto t y).th w).op = (s.th w).op ∧ (w ≠ t → (x.goto t y).th w = s.th w) := by
        intro x y hx
        by_cases hw : w = t
        · subst hw
          simp [goto, hx]
        · simp [goto, hx, hw]
      cases hm <;> exact hgoto _ _ rfl
    exact ⟨hu, (next_io hs).trans hio, hm.grows.trans hg, fun h => hd (hm.devs h), fun w => (hop w).trans (hmove w).1,
      fun w hw => (hth w hw).trans ((hmove w).2 hw)⟩

/-- The disk at any moment of a commit. -/
theorem Steps.commit (h : Steps sb t s u) (hinv : ∃ G C, s.Inv G C) (hst : (s.th t).st = .run Fs.commit) (hdev : s.io.log.dev = ROOTDEV)
    (hr : s.io.Ready v) : ∃ x y ws, ws <+: commitWrites s.io.log v x y ∧ u.io.disk = applyWrites s.io.disk ws ∧
      (u.Idle t = true → ws = commitWrites s.io.log v x y) := by
  obtain ⟨-, hio, ⟨⟨ws, hw, hd⟩, -⟩, -⟩ := h.io hinv
  rw [restIo_of_run hst, Fs.commit_io hdev] at hio
  have hspec := commit_spec hr
  have hgrow := restIo_grow u t u.io
  unfold wp at hspec hgrow
  rw [hio] at hspec
  have hidle : u.Idle t = true → u.restIo t u.io = .ok () u.io := by
    intro hi
    rw [restIo_of_run (idle_iff.1 hi)]
    rfl
  cases hres : u.restIo t u.io with
  | ok a r =>
    rw [hres] at hspec hgrow
    obtain ⟨x, y, hxy⟩ := hspec
    obtain ⟨vs, hvs, -⟩ := hgrow.writes
    rw [hw, List.append_assoc] at hvs
    have hall : commitWrites s.io.log v x y = ws ++ vs := List.append_cancel_left (hxy.symm.trans hvs)
    refine ⟨x, y, ws, ⟨vs, hall.symm⟩, hd, fun hi => ?_⟩
    have := hidle hi
    rw [hres] at this
    cases this
    exact List.append_cancel_left (hw.symm.trans hxy)
  | error msg r =>
    rw [hres] at hspec hgrow
    obtain ⟨⟨x, y, us, hus, hxy⟩, -⟩ := hspec
    obtain ⟨vs, hvs, -⟩ := hgrow.writes
    rw [hw, List.append_assoc] at hvs
    have hall : us = ws ++ vs := List.append_cancel_left (hxy.symm.trans hvs)
    refine ⟨x, y, ws, (hall ▸ List.prefix_append ws vs).trans hus, hd, fun hi => ?_⟩
    have := hidle hi
    rw [hres] at this
    cases this

/-- A commit of nothing writes nothing. -/
theorem Steps.commit_nil (h : Steps sb t s u) (hinv : ∃ G C, s.Inv G C) (hst : (s.th t).st = .run Fs.commit)
    (hdev : s.io.log.dev = ROOTDEV) (hlh : s.io.log.lh = []) : u.io.disk = s.io.disk := by
  obtain ⟨-, hio, ⟨⟨ws, hw, hd⟩, -⟩, -⟩ := h.io hinv
  have hgrow := restIo_grow u t u.io
  have hcommit : Xv6.commit s.io = .ok () s.io := by
    show (if s.io.log.lh.length > 0 then _ else pure () : Io Unit) s.io = _
    rw [if_neg (by rw [hlh]; exact Nat.lt_irrefl 0)]
    rfl
  rw [restIo_of_run hst, Fs.commit_io hdev, hcommit] at hio
  unfold wp at hgrow
  rw [← hio] at hgrow
  obtain ⟨vs, hvs, -⟩ := hgrow.writes
  rw [hw, List.append_assoc] at hvs
  have hnil : ws ++ vs = [] := List.append_right_eq_self.1 hvs.symm
  rw [hd, (List.append_eq_nil_iff.1 hnil).1, applyWrites_nil]

end

end FsSys

/-! ### The next boot -/

section

variable {s : Store} {v : UInt32 → Block} {d d' : Disk}

/-- A boot with an empty header changes only the header block. -/
theorem recover_empty (hd : s.log.dev ≠ 0) (h : headerCount (d s.log.start) = 0)
    (hr : Recovering s.log.dev s.log.start s.log.size d d') :
    ∃ r, initlog s.log.dev s.log.start s.log.size (binit log0 d') = .ok () r ∧ headerCount (r.disk s.log.start) = 0 ∧
      ∀ b, b ≠ s.log.start → r.disk b = d b := by
  have hclear : ∀ (e : Disk) (y : Block) b, b ≠ s.log.start → applyWrites e [(s.log.start, putHeader y [])] b = e b := by
    intro e y b hb
    rw [applyWrites_cons, applyWrites_nil, Function.update_of_ne hb]
  induction hr with
  | none d =>
    obtain ⟨r, y, hr, -, hdisk⟩ := initlog_empty hd h
    refine ⟨r, hr, ?_, fun b hb => ?_⟩
    · rw [hdisk]
      exact headerCount_clear _ _ _
    · rw [hdisk]
      exact hclear d y b hb
  | @cut d d' ws hws _ ih =>
    obtain ⟨-, y, -, hw, -⟩ := initlog_empty hd h
    rw [hw] at hws
    rcases List.prefix_concat_iff.1 (show ws <+: [] ++ [_] from hws) with rfl | hws
    · obtain ⟨r, hr, h0, hsame⟩ := ih (headerCount_clear _ _ _)
      exact ⟨r, hr, h0, fun b hb => (hsame b hb).trans (hclear d y b hb)⟩
    · obtain rfl := List.prefix_nil.1 hws
      exact ih h

/-- A boot after the commit point installs the transaction. -/
theorem recover_new (h : s.Ready v) (hn : s.NewDisk v d ∨ s.DoneDisk v d) (hr : Recovering s.log.dev s.log.start s.log.size d d') :
    ∃ r, initlog s.log.dev s.log.start s.log.size (binit log0 d') = .ok () r ∧ s.DoneDisk v r.disk := by
  rcases Recovering.new h hn hr with hn' | hn'
  · obtain ⟨r, y, hr, -, hdisk⟩ := initlog_new h hn'
    exact ⟨r, hr, hdisk ▸ hn'.finish h y⟩
  · obtain ⟨r, y, hr, -, hdisk⟩ := initlog_empty h.dev hn'.empty
    exact ⟨r, hr, hdisk ▸ hn'.clear h y⟩

end

end Xv6
