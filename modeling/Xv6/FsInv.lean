import Xv6.BioSpec
import Xv6.FsProgSpec
import Xv6.Lib.Sum
import Xv6.LogCommit

/-!
# What the processes know of the cache

`FsSys.Move` lists what a step of a process can do.  `FsSys.Inv` relates the state to what the processes know (`Ghost`): which
buffers they hold and have changed, and what the one in `commit` has written.  The lemmas say which parts of it a step keeps.
-/

namespace Xv6

open Function (update)

variable {P : Type} [DecidableEq P]

namespace FsSys

def setIo (s : FsSys P) (io : Store) : FsSys P := { s with io := io }

def setLock (s : FsSys P) (i : Fin NBUF) (x : Option P) : FsSys P := { s with lock := update s.lock i x }

/-- Buffer `i` is counted, or assigned to another block. -/
def count (s : FsSys P) (i : Fin NBUF) (n : Nat) : Store := s.io.setBuf i { s.io.buf i with refcnt := n }

def assign (s : FsSys P) (i : Fin NBUF) (b : UInt32) : Store :=
  s.io.setBuf i { s.io.buf i with dev := ROOTDEV, blockno := b, valid := false, refcnt := 1 }

def fillWith (s : FsSys P) (i : Fin NBUF) (d : Block) : Store := s.io.setBuf i { s.io.buf i with data := d }

/-- The data of buffer `i` is written to its block. -/
def writeOut (s : FsSys P) (i : Fin NBUF) : Store :=
  let b := s.io.buf i
  { s.io with disk := update s.io.disk b.blockno b.data, writes := s.io.writes ++ [(b.blockno, b.data)] }

/-- Buffer `i` is pinned, unless its block is in the header already. -/
def pinned (s : FsSys P) (i : Fin NBUF) : Nat :=
  if (s.io.buf i).blockno ∈ s.io.log.lh then (s.io.buf i).refcnt else (s.io.buf i).refcnt + 1

def logged (s : FsSys P) (i : Fin NBUF) (lg : Log) : Store := { s.count i (s.pinned i) with log := lg }

/-- What the next step of process `t` does, if it is not a panic. -/
inductive Move (s : FsSys P) (t : P) : FsSys P → Prop
  | hit {b k i} (hst : (s.th t).st = .run (.bread b k)) (hc : s.io.Caches ROOTDEV b i) :
    Move s t ((s.setIo (s.count i ((s.io.buf i).refcnt + 1))).goto t (.wait i k))
  | recycle {b k i} (hst : (s.th t).st = .run (.bread b k)) (hc : ∀ j, ¬ s.io.Caches ROOTDEV b j)
      (h0 : (s.io.buf i).refcnt = 0) : Move s t ((s.setIo (s.assign i b)).goto t (.wait i k))
  | lock {i k} (hst : (s.th t).st = .wait i k) (hl : s.lock i = none) : Move s t ((s.setLock i (some t)).goto t (.fill i k))
  | fill {i k} (hst : (s.th t).st = .fill i k) : Move s t ((s.setIo (s.fillBuf i)).goto t (.run (k i)))
  | data {i k} (hst : (s.th t).st = .run (.data i k)) : Move s t (s.goto t (.run (k (s.io.buf i).data)))
  | store {i d k} (hst : (s.th t).st = .run (.store i d k)) : Move s t ((s.setIo (s.fillWith i d)).goto t (.run k))
  | logWrite {i k lg} (hst : (s.th t).st = .run (.logWrite i k)) (hl : s.io.log.logWrite (s.io.buf i).blockno = .ok lg) :
    Move s t ((s.setIo (s.logged i lg)).goto t (.run k))
  | bwrite {i k} (hst : (s.th t).st = .run (.bwrite i k)) (hl : s.lock i = some t) :
    Move s t ((s.setIo (s.writeOut i)).goto t (.run k))
  | brelse {i k} (hst : (s.th t).st = .run (.brelse i k)) (hl : s.lock i = some t) :
    Move s t ((s.setLock i none).goto t (.rel i k))
  | rel {i k} (hst : (s.th t).st = .rel i k) : Move s t ((s.setIo (s.io.release i)).goto t (.run k))
  | bunpin {i k} (hst : (s.th t).st = .run (.bunpin i k)) :
    Move s t ((s.setIo (s.count i ((s.io.buf i).refcnt - 1))).goto t (.run k))
  | readLog {k} (hst : (s.th t).st = .run (.readLog k)) : Move s t (s.goto t (.run (k s.io.log)))
  | clearHead {k} (hst : (s.th t).st = .run (.clearHead k)) :
    Move s t ((s.setIo { s.io with log := { s.io.log with lh := [] } }).goto t (.run k))

variable {s s' : FsSys P} {t : P}

omit [DecidableEq P] in
private theorem logWrite_eq (i : Fin NBUF) : Xv6.logWrite i s.io =
    match s.io.log.logWrite (s.io.buf i).blockno with
    | .error msg => .error msg s.io
    | .ok lg => .ok () (s.logged i lg) := by
  have hget : Xv6.logWrite i s.io = (match s.io.log.logWrite (s.io.buf i).blockno with
    | .error msg => throw msg
    | .ok lg => do
      if (s.io.buf i).blockno ∉ s.io.log.lh then bpin i
      modify fun s => { s with log := lg } : Io Unit) s.io := rfl
  rw [hget]
  cases s.io.log.logWrite (s.io.buf i).blockno with
  | error msg => rfl
  | ok lg =>
    dsimp only
    split
    · rename_i hm
      simp only [logged, pinned, if_neg hm]
      rfl
    · rename_i hm
      simp only [logged, pinned, if_pos (not_not.1 hm), count, Store.setBuf, Function.update_eq_self]
      rfl

theorem next_move (hl : ∀ i, i ∈ s.io.lru) (h : s.next t = some (.ok s')) : s.Move t s' := by
  unfold next at h
  split at h
  · rename_i p hst
    cases p with
    | pure a => cases h
    | panic msg => cases h
    | copyin i off m k => cases h
    | copyout i off m k => cases h
    | bread b k =>
      have hb := bget_spec hl ROOTDEV b
      simp only [exec, lift, wp] at h hb
      split at h
      · rename_i i io hio
        rw [hio] at hb
        cases h
        rcases hb with ⟨hc, rfl⟩ | ⟨hn, h0, rfl⟩
        · exact .hit hst hc
        · exact .recycle hst hn h0
      · cases h
    | data i k =>
      cases h
      exact .data hst
    | store i d k =>
      cases h
      exact .store hst
    | logWrite i k =>
      simp only [exec, lift, logWrite_eq] at h
      split at h
      · rename_i a io hio
        split at hio
        · cases hio
        · cases hio
          cases h
          exact .logWrite hst ‹_›
      · cases h
    | bwrite i k =>
      simp only [exec] at h
      split at h
      · cases h
        exact .bwrite hst ‹_›
      · cases h
    | brelse i k =>
      simp only [exec] at h
      split at h
      · cases h
        exact .brelse hst ‹_›
      · cases h
    | bunpin i k =>
      cases h
      exact .bunpin hst
    | readLog k =>
      cases h
      exact .readLog hst
    | clearHead k =>
      cases h
      exact .clearHead hst
  · rename_i i k hst
    split at h
    · cases h
      exact .lock hst ‹_›
    · cases h
  · rename_i i k hst
    cases h
    exact .fill hst
  · rename_i i k hst
    cases h
    exact .rel hst

end FsSys

/-! ### The invariant -/

/-- No buffers are held and the header is empty. -/
def Ghost.Done (g : Ghost) : Prop := (∀ i, g.held i = none) ∧ ∀ x, g.com = some x → x.lh = [] ∧ x.pins = []

/-- `p` keeps the discipline, and returns without buffers. -/
def Ghost.Runs (g : Ghost) (p : Prog Unit) : Prop := p.wp (fun _ => Ghost.Done) g

def FsSt.Ok (io : Store) (g : Ghost) : FsSt → Prop
  | run p => g.Runs p
  | wait i k => (io.buf i).dev = ROOTDEV ∧ (g.held i = none → (g.hold i (io.buf i).blockno false).Runs (k i))
  | fill i k => (∃ b, g.held i = some (b, false)) ∧ g.Runs (k i)
  | rel _ k => g.Runs k

/-- The buffer whose sleep lock the process waits for or has just released. -/
def FsSt.near : FsSt → Option (Fin NBUF)
  | wait i _ | rel i _ => some i
  | _ => none

theorem FsSt.Ok.keep {x : FsSt} {io io' : Store} {g : Ghost} (h : x.Ok io g)
    (hb : ∀ i, x.near = some i → (io'.buf i).dev = (io.buf i).dev ∧ (io'.buf i).blockno = (io.buf i).blockno) : x.Ok io' g := by
  cases x with
  | wait i k =>
    obtain ⟨hd, hn⟩ := hb i rfl
    simp only [FsSt.Ok]
    rw [hd, hn]
    exact h
  | _ => exact h

/-- The references of a process to buffer `i`. -/
def refsTo (x : FsTh × Ghost) (i : Fin NBUF) : Nat :=
  (if (x.2.held i).isSome then 1 else 0) + if x.1.st.near = some i then 1 else 0

/-- No process has changed buffer `i` without logging it. -/
def Undirtied (G : P → Ghost) (i : Fin NBUF) : Prop := ∀ t b, (G t).held i ≠ some (b, true)

namespace FsSys

/-- The holders of the sleep locks know it. -/
structure Held (s : FsSys P) (G : P → Ghost) : Prop where
  held : ∀ t i b c, (G t).held i = some (b, c) → s.lock i = some t ∧ (s.io.buf i).dev = ROOTDEV ∧ (s.io.buf i).blockno = b
  lock : ∀ t i, s.lock i = some t → (G t).held i ≠ none

structure Cache (s : FsSys P) : Prop where
  lru : ∀ i, i ∈ s.io.lru
  dev : ∀ i, (s.io.buf i).valid = true → (s.io.buf i).dev = ROOTDEV
  unique : ∀ i j, (s.io.buf i).dev = ROOTDEV → (s.io.buf j).dev = ROOTDEV → (s.io.buf i).blockno = (s.io.buf j).blockno → i = j

/-- One reference to the buffer of each pinned block. -/
def pin (io : Store) (pins : List UInt32) (i : Fin NBUF) : Nat :=
  if (io.buf i).dev = ROOTDEV ∧ (io.buf i).blockno ∈ pins then 1 else 0

def Refs [Fintype P] (s : FsSys P) (G : P → Ghost) (pins : List UInt32) : Prop :=
  ∀ i, ∑ t, refsTo (s.th t, G t) i + pin s.io pins i ≤ (s.io.buf i).refcnt

def Clean (s : FsSys P) (G : P → Ghost) (C : Committing) : Prop :=
  ∀ i, (s.io.buf i).valid = true → Undirtied G i →
    (s.io.buf i).data = s.io.disk (s.io.buf i).blockno ∨ (s.io.buf i).blockno ∈ C.lh ∧ (s.io.buf i).blockno ∉ C.synced

structure Ops [Fintype P] (s : FsSys P) (G : P → Ghost) (C : Committing) : Prop where
  lh : C.lh = s.io.log.lh
  nodup : C.lh.Nodup
  pins : C.pins.Nodup
  sub : ∀ b ∈ C.pins, b ∈ C.lh
  inOp : ∀ t, (G t).inOp = true ↔ (s.th t).op = .inOp
  com : ∀ t, (G t).com = if (s.th t).op = .commit then some C else none
  outstanding : s.io.log.outstanding = ((∑ t, if (s.th t).op = .inOp then 1 else 0 : Nat) : Int)
  committing : s.io.log.committing = true ↔ ∃ t, (s.th t).op = .commit
  alone : ∀ t u, (s.th t).op = .commit → (s.th u).op = .commit → t = u
  quiet : ∀ t u, (s.th t).op = .commit → (s.th u).op ≠ .inOp
  rest : (∀ t, (s.th t).op ≠ .commit) → C.pins = C.lh ∧ C.synced = []

structure Inv [Fintype P] (s : FsSys P) (G : P → Ghost) (C : Committing) : Prop where
  ok : ∀ t, (s.th t).st.Ok s.io (G t)
  held : s.Held G
  cache : s.Cache
  cached : ∀ b ∈ C.pins, ∃ i, s.io.Caches ROOTDEV b i
  refs : s.Refs G C.pins
  clean : s.Clean G C
  ops : s.Ops G C

variable {s s' : FsSys P} {t : P} {G : P → Ghost} {C D : Committing} {g : Ghost} {x : FsSt}

/-! ### Parts of the invariant that a step keeps -/

/-- The blocks of the buffers that somebody refers to stay. -/
def KeepsBlocks (s s' : FsSys P) (G : P → Ghost) : Prop :=
  ∀ i, (∃ u, refsTo (s.th u, G u) i ≠ 0) →
    (s'.io.buf i).dev = (s.io.buf i).dev ∧ (s'.io.buf i).blockno = (s.io.buf i).blockno

omit [DecidableEq P] in
theorem refers_of_held {u : P} {i : Fin NBUF} (h : (G u).held i ≠ none) : refsTo (s.th u, G u) i ≠ 0 := by
  simp [refsTo, Option.isSome_iff_ne_none.2 h]

omit [DecidableEq P] in
theorem refers_of_near {u : P} {i : Fin NBUF} (h : (s.th u).st.near = some i) : refsTo (s.th u, G u) i ≠ 0 := by
  simp [refsTo, h]

theorem ok_keep {y : FsTh} (h : ∀ u, (s.th u).st.Ok s.io (G u)) (hth : s'.th = update s.th t y) (hk : s.KeepsBlocks s' G)
    (ht : y.st.Ok s'.io g) (u : P) : (s'.th u).st.Ok s'.io (update G t g u) := by
  rw [hth]
  by_cases hut : u = t
  · rw [hut, Function.update_self, Function.update_self]
    exact ht
  · rw [Function.update_of_ne hut, Function.update_of_ne hut]
    exact (h u).keep fun i hi => hk i ⟨u, refers_of_near hi⟩

/-- The process still holds the same buffers. -/
def Same (g g' : Ghost) : Prop := ∀ i, (g'.held i).map (·.1) = (g.held i).map (·.1)

theorem Same.refl (g : Ghost) : Same g g := fun _ => rfl

theorem Same.hold {i : Fin NBUF} {b : UInt32} {c : Bool} (h : g.held i = some (b, c)) (d : Bool) : Same g (g.hold i b d) := by
  intro j
  by_cases hj : j = i
  · rw [hj, Ghost.hold_held, h]
    rfl
  · rw [Ghost.held_of_ne hj]

theorem Same.isSome {g g' : Ghost} (h : Same g g') (i : Fin NBUF) : (g'.held i).isSome = (g.held i).isSome := by
  have := congrArg Option.isSome (h i)
  simpa using this

theorem Held.keep (h : s.Held G) (hl : s'.lock = s.lock) (hg : Same (G t) g) (hk : s.KeepsBlocks s' G) :
    s'.Held (update G t g) := by
  have hsame : ∀ u i, ((update G t g u).held i).map (·.1) = ((G u).held i).map (·.1) := by
    intro u i
    by_cases hut : u = t
    · rw [hut, Function.update_self]
      exact hg i
    · rw [Function.update_of_ne hut]
  refine ⟨fun u i b c hu => ?_, fun u i hu => ?_⟩
  · have hb := hsame u i
    rw [hu] at hb
    obtain ⟨⟨b', c'⟩, hb', rfl⟩ := Option.map_eq_some_iff.1 hb.symm
    obtain ⟨h1, h2, h3⟩ := h.held u i b' c' hb'
    obtain ⟨h4, h5⟩ := hk i ⟨u, refers_of_held (by rw [hb']; nofun)⟩
    rw [hl, h4, h5]
    exact ⟨h1, h2, h3⟩
  · rw [hl] at hu
    have := h.lock u i hu
    intro hn
    have hb := hsame u i
    rw [hn] at hb
    exact this (by simpa using hb.symm)

omit [DecidableEq P] in
theorem Cache.keep (h : s.Cache) (hl : ∀ i, i ∈ s'.io.lru)
    (hb : ∀ i, (s'.io.buf i).dev = (s.io.buf i).dev ∧ (s'.io.buf i).blockno = (s.io.buf i).blockno)
    (hv : ∀ i, (s'.io.buf i).valid = true → (s.io.buf i).valid = true ∨ (s.io.buf i).dev = ROOTDEV) : s'.Cache := by
  refine ⟨hl, fun i hi => ?_, fun i j hi hj hij => ?_⟩
  · rw [(hb i).1]
    rcases hv i hi with hi | hi
    · exact h.dev i hi
    · exact hi
  · rw [(hb i).1] at hi
    rw [(hb j).1] at hj
    rw [(hb i).2, (hb j).2] at hij
    exact h.unique i j hi hj hij

theorem Refs.step [Fintype P] {pins pins' : List UInt32} {y : FsTh} (h : s.Refs G pins) (hth : s'.th = update s.th t y)
    (hr : ∀ i, refsTo (y, g) i + pin s'.io pins' i + (s.io.buf i).refcnt ≤
      refsTo (s.th t, G t) i + pin s.io pins i + (s'.io.buf i).refcnt) : s'.Refs (update G t g) pins' := by
  intro i
  have hsum := sum_update (fun z => refsTo z i) (fun u => (s.th u, G u)) t (y, g)
  have hf : ∀ u, (s'.th u, update G t g u) = update (fun u => (s.th u, G u)) t (y, g) u := by
    intro u
    rw [hth]
    by_cases hut : u = t
    · rw [hut, Function.update_self, Function.update_self, Function.update_self]
    · rw [Function.update_of_ne hut, Function.update_of_ne hut, Function.update_of_ne hut]
  simp only [hf]
  have h1 := h i
  have h2 := hr i
  omega

theorem Ops.step [Fintype P] {y : FsTh} (h : s.Ops G C) (hth : s'.th = update s.th t y) (hop : y.op = (s.th t).op)
    (hout : s'.io.log.outstanding = s.io.log.outstanding) (hcm : s'.io.log.committing = s.io.log.committing)
    (hlh : D.lh = s'.io.log.lh) (hn : D.lh.Nodup) (hp : D.pins.Nodup) (hsub : ∀ b ∈ D.pins, b ∈ D.lh)
    (hg : g.com = if (s.th t).op = .commit then some D else none) (ho : g.inOp = (G t).inOp)
    (hu : ∀ u, u ≠ t → (s.th u).op = .commit → D = C)
    (hrest : (∀ u, (s.th u).op ≠ .commit) → D.pins = D.lh ∧ D.synced = []) : s'.Ops (update G t g) D := by
  have hops : ∀ u, (s'.th u).op = (s.th u).op := by
    intro u
    rw [hth]
    by_cases hut : u = t
    · rw [hut, Function.update_self, hop]
    · rw [Function.update_of_ne hut]
  refine ⟨hlh, hn, hp, hsub, fun u => ?_, fun u => ?_, ?_, ?_, fun u v => ?_, fun u v => ?_, fun hno => ?_⟩
  · rw [hops]
    by_cases hut : u = t
    · rw [hut, Function.update_self, ho]
      exact h.inOp t
    · rw [Function.update_of_ne hut]
      exact h.inOp u
  · rw [hops]
    by_cases hut : u = t
    · rw [hut, Function.update_self]
      exact hg
    · rw [Function.update_of_ne hut, h.com u]
      split
      · rw [hu u hut ‹_›]
      · rfl
  · rw [hout]
    simp only [hops]
    exact h.outstanding
  · rw [hcm]
    simp only [hops]
    exact h.committing
  · rw [hops, hops]
    exact h.alone u v
  · rw [hops, hops]
    exact h.quiet u v
  · refine hrest fun u => ?_
    rw [← hops]
    exact hno u

theorem Ops.keep [Fintype P] {y : FsTh} (h : s.Ops G C) (hth : s'.th = update s.th t y) (hop : y.op = (s.th t).op)
    (hlog : s'.io.log = s.io.log) (hg : g.com = (G t).com) (ho : g.inOp = (G t).inOp) : s'.Ops (update G t g) C :=
  h.step hth hop (by rw [hlog]) (by rw [hlog]) (by rw [hlog]; exact h.lh) h.nodup h.pins h.sub (hg.trans (h.com t)) ho
    (fun _ _ _ => rfl) h.rest

/-- What the process has changed stays changed. -/
def StillDirty (g g' : Ghost) : Prop := ∀ i b, g.held i = some (b, true) → ∃ b', g'.held i = some (b', true)

theorem StillDirty.refl (g : Ghost) : StillDirty g g := fun _ b h => ⟨b, h⟩

theorem undirtied_of {i : Fin NBUF} (hd : ∀ b, (G t).held i = some (b, true) → ∃ b', g.held i = some (b', true))
    (h : Undirtied (update G t g) i) : Undirtied G i := by
  intro u b hu
  by_cases hut : u = t
  · subst hut
    obtain ⟨b', hb'⟩ := hd b hu
    exact h u b' (by rw [Function.update_self, hb'])
  · exact h u b (by rw [Function.update_of_ne hut, hu])

theorem Clean.keep (h : s.Clean G C) (hd : StillDirty (G t) g)
    (hb : ∀ i, (s'.io.buf i).valid = true → (s.io.buf i).valid = true ∧ (s'.io.buf i).data = (s.io.buf i).data ∧
      (s'.io.buf i).blockno = (s.io.buf i).blockno) (hdisk : s'.io.disk = s.io.disk) : s'.Clean (update G t g) C := by
  intro i hv hu
  obtain ⟨h1, h2, h3⟩ := hb i hv
  rw [h2, h3, hdisk]
  exact h i h1 (undirtied_of (hd i) hu)

end FsSys

end Xv6
