import Mathlib.Data.Fintype.Card
import Mathlib.Data.Fintype.Fin
import Xv6.BioSpec
import Xv6.Lib.Linked
import Xv6.Lib.Lts

/-!
# The buffer cache of concurrent processes

The functions of `bio.c` with the list through `prev` and `next` as the source links it by hand, for any number of processes that
call them at any time.  One step is a section under `bcache.lock`, the taking of a sleep lock, or what `bread` does with the disk.
Beside the state a history has the calls of `bget` without their `brelse` and those of `bpin` without their `bunpin`.
-/

namespace Xv6

open Function (update)

variable {P : Type} [DecidableEq P]

/-- Where a process is: outside these functions; in `bread`, before and after it has taken the sleep lock of the buffer; in
`brelse`, after it has released it. -/
inductive BcacheSt
  | out
  | wait (i : Fin NBUF)
  | fill (i : Fin NBUF)
  | rel (i : Fin NBUF)
  deriving DecidableEq

structure Bcache (P : Type) where
  buf : Fin NBUF → Buf
  list : Linked (Fin NBUF)
  lock : Fin NBUF → Option P
  st : P → BcacheSt

inductive BcacheEv (P : Type)
  | bget (p : P) (dev blockno : UInt32)
  | acquiresleep (p : P)
  -- the rest of `bread`, with the data that the disk has for the block
  | fill (p : P) (data : Block)
  | brelse (p : P) (i : Fin NBUF)
  -- the section under `bcache.lock` at the end of `brelse`
  | put (p : P)
  | bpin (p : P) (i : Fin NBUF)
  | bunpin (p : P) (i : Fin NBUF)

namespace Bcache

variable (s : Bcache P)

def setBuf (i : Fin NBUF) (b : Buf) : Bcache P := { s with buf := update s.buf i b }

def goto (p : P) (x : BcacheSt) : Bcache P := { s with st := update s.st p x }

/-- `b->dev == dev && b->blockno == blockno`. -/
def has (b : Buf) (dev blockno : UInt32) : Bool := b.dev = dev && b.blockno = blockno

omit [DecidableEq P] in
/-- The buffer that `bget` returns, and what it makes of it; `none` if one of its loops does not end. -/
def lookup (dev blockno : UInt32) : Option (Except String (Fin NBUF × Buf)) :=
  match Linked.walk s.list.next NBUF none with
  | none => none
  | some l =>
    match l.find? fun i => has (s.buf i) dev blockno with
    | some i => some (.ok (i, { s.buf i with refcnt := (s.buf i).refcnt + 1 }))
    | none =>
      match Linked.walk s.list.prev NBUF none with
      | none => none
      | some l =>
        match l.find? fun i => (s.buf i).refcnt = 0 with
        | some i => some (.ok (i, { s.buf i with dev := dev, blockno := blockno, valid := false, refcnt := 1 }))
        | none => some (.error "bget: no buffers")

/-- `b->refcnt--`, and the buffer goes behind the head if no one is waiting for it. -/
def release (i : Fin NBUF) : Bcache P :=
  let s := s.setBuf i { s.buf i with refcnt := (s.buf i).refcnt - 1 }
  if (s.buf i).refcnt = 0 then { s with list := (s.list.unlink i).push i } else s

def step : BcacheEv P → Option (Except String (Bcache P))
  | .bget p dev blockno =>
    if s.st p = .out then
      match s.lookup dev blockno with
      | none => none
      | some (.error msg) => some (.error msg)
      | some (.ok (i, b)) => some (.ok ((s.setBuf i b).goto p (.wait i)))
    else none
  | .acquiresleep p =>
    match s.st p with
    | .wait i => if s.lock i = none then some (.ok ({ s with lock := update s.lock i (some p) }.goto p (.fill i))) else none
    | _ => none
  | .fill p data =>
    match s.st p with
    | .fill i =>
      let t := if !(s.buf i).valid then s.setBuf i { s.buf i with data := data, valid := true } else s
      some (.ok (t.goto p .out))
    | _ => none
  | .brelse p i =>
    if s.st p = .out then
      if s.lock i = some p then some (.ok ({ s with lock := update s.lock i none }.goto p (.rel i)))
      else some (.error "brelse")
    else none
  | .put p =>
    match s.st p with
    | .rel i => some (.ok ((s.release i).goto p .out))
    | _ => none
  | .bpin p i =>
    if s.st p = .out then some (.ok (s.setBuf i { s.buf i with refcnt := (s.buf i).refcnt + 1 })) else none
  | .bunpin p i =>
    if s.st p = .out then some (.ok (s.setBuf i { s.buf i with refcnt := (s.buf i).refcnt - 1 })) else none

/-- The cache that `binit` leaves. -/
def binit : Bcache P where
  buf _ := { valid := false, dev := 0, blockno := 0, refcnt := 0, data := fun _ => 0 }
  list := (List.finRange NBUF).foldl Linked.push Linked.empty
  lock _ := none
  st _ := .out

end Bcache

/-- The calls of `bget` that were not followed by `brelse`, and the calls of `bpin` that were not followed by `bunpin`. -/
structure BufRefs (P : Type) where
  gets : List (P × Fin NBUF) := []
  pins : List (Fin NBUF) := []

/-- The history after step `e` of `s`. -/
def Bcache.hist (s : Bcache P) (e : BcacheEv P) (h : BufRefs P) : BufRefs P :=
  match e with
  | .bget p dev blockno =>
    match s.lookup dev blockno with
    | some (.ok (i, _)) => { h with gets := (p, i) :: h.gets }
    | _ => h
  | .put p =>
    match s.st p with
    | .rel i => { h with gets := h.gets.erase (p, i) }
    | _ => h
  | .bpin _ i => { h with pins := i :: h.pins }
  | .bunpin _ i => { h with pins := h.pins.erase i }
  | _ => h

/-- A process gives back a buffer that `bread` gave it, and takes back a `bpin` that was made. -/
def Paired (x : Bcache P × BufRefs P) : BcacheEv P → Prop
  | .brelse p i => x.1.lock i = some p
  | .bunpin _ i => i ∈ x.2.pins
  | _ => True

instance (x : Bcache P × BufRefs P) : (e : BcacheEv P) → Decidable (Paired x e)
  | .brelse p i => inferInstanceAs (Decidable (x.1.lock i = some p))
  | .bunpin _ i => inferInstanceAs (Decidable (i ∈ x.2.pins))
  | .bget .. | .acquiresleep _ | .fill .. | .put _ | .bpin .. => inferInstanceAs (Decidable True)

/-- The runs of processes that pair the calls. -/
def bcacheLts (P : Type) [DecidableEq P] : Lts (Bcache P × BufRefs P) (BcacheEv P) :=
  (Lts.ofFun (fun x => x = (Bcache.binit, {})) (Lts.histStep Bcache.step Bcache.hist)).guard Paired

namespace Bcache

variable {s t : Bcache P} {h : BufRefs P}

/-! ### The list -/

/-- The links form a ring of all buffers. -/
def Ringed (s : Bcache P) (l : List (Fin NBUF)) : Prop := s.list.On l ∧ ∀ i, i ∈ l

omit [DecidableEq P] in
theorem Ringed.length_le {l : List (Fin NBUF)} (h : s.Ringed l) : l.length ≤ NBUF := by
  simpa using h.1.nodup.length_le_card

omit [DecidableEq P] in
theorem binit_ringed : (binit : Bcache P).Ringed (List.finRange NBUF).reverse := by
  have hfold : ∀ (l m : List (Fin NBUF)) (r : Linked (Fin NBUF)), r.On m → (l.reverse ++ m).Nodup →
      (l.foldl Linked.push r).On (l.reverse ++ m) := by
    intro l
    induction l with
    | nil =>
      intro m r hr _
      exact hr
    | cons i l ih =>
      intro m r hr hn
      rw [List.reverse_cons, List.append_assoc] at hn ⊢
      have hi : i ∉ m := (List.nodup_cons.1 (List.nodup_append.1 hn).2.1).1
      exact ih (i :: m) (r.push i) (hr.push hi) hn
  refine ⟨?_, fun i => List.mem_reverse.2 (List.mem_finRange i)⟩
  have := hfold (List.finRange NBUF) [] Linked.empty Linked.On.empty (by simp [List.nodup_finRange])
  rwa [List.append_nil] at this

omit [DecidableEq P] in
theorem Ringed.release {l : List (Fin NBUF)} (h : s.Ringed l) (i : Fin NBUF) :
    (s.release i).Ringed (if (s.buf i).refcnt - 1 = 0 then i :: l.erase i else l) := by
  unfold Bcache.release
  simp only [setBuf, Function.update_self]
  split
  · refine ⟨(h.1.unlink (h.2 i)).push ?_, fun j => ?_⟩
    · exact fun hm => (h.1.nodup.not_mem_erase) hm
    · by_cases hj : j = i
      · simp [hj]
      · exact List.mem_cons_of_mem _ ((List.mem_erase_of_ne hj).2 (h.2 j))
  · exact h

/-! ### The functions over the list `Store.lru` -/

/-- The cache as a store. -/
def store (s : Bcache P) (l : List (Fin NBUF)) (io : Store) : Store := { io with buf := s.buf, lru := l }

omit [DecidableEq P] in
theorem Ringed.lookup_eq {l : List (Fin NBUF)} (h : s.Ringed l) (io : Store) (dev b : UInt32) :
    s.lookup dev b = some (match Xv6.bget dev b (s.store l io) with
      | .ok i st => .ok (i, st.buf i)
      | .error msg _ => .error msg) := by
  have hhas : (fun i => decide ((s.store l io).Caches dev b i)) = fun i => has (s.buf i) dev b := by
    funext i
    rw [Bool.eq_iff_iff, decide_eq_true_iff]
    simp [store, Store.Caches, has]
  have hfind : (s.store l io).lru.find? (fun i => decide ((s.store l io).Caches dev b i)) = l.find? fun i => has (s.buf i) dev b := by
    rw [hhas]
    rfl
  have hfree : (s.store l io).lru.reverse.find? (fun i => decide (((s.store l io).buf i).refcnt = 0)) =
      l.reverse.find? fun i => decide ((s.buf i).refcnt = 0) := rfl
  unfold lookup Xv6.bget
  rw [h.1.walk_next h.length_le, h.1.walk_prev h.length_le, hfind, hfree]
  dsimp only
  cases l.find? fun i => has (s.buf i) dev b with
  | some i => simp [store]
  | none =>
    dsimp only
    cases l.reverse.find? fun i => decide ((s.buf i).refcnt = 0) with
    | some i => simp [store]
    | none => rfl

omit [DecidableEq P] in
theorem release_eq (l : List (Fin NBUF)) (io : Store) (i : Fin NBUF) :
    ((s.store l io).release i).buf = (s.release i).buf ∧
      ((s.store l io).release i).lru = if (s.buf i).refcnt - 1 = 0 then i :: l.erase i else l := by
  unfold Store.release Bcache.release
  simp only [store, setBuf, Store.setBuf, Function.update_self]
  split <;> exact ⟨rfl, rfl⟩

omit [DecidableEq P] in
/-- What `bget` can do. -/
theorem Ringed.lookup_cases {l : List (Fin NBUF)} (h : s.Ringed l) {dev b : UInt32} {i : Fin NBUF} {x : Buf}
    (hl : s.lookup dev b = some (.ok (i, x))) :
    ((s.buf i).dev = dev ∧ (s.buf i).blockno = b ∧ x = { s.buf i with refcnt := (s.buf i).refcnt + 1 }) ∨
      ((∀ j, ¬((s.buf j).dev = dev ∧ (s.buf j).blockno = b)) ∧ (s.buf i).refcnt = 0 ∧
        x = { s.buf i with dev := dev, blockno := b, valid := false, refcnt := 1 }) := by
  let io : Store := Xv6.binit ⟨0, 0, 0, false, 0, []⟩ fun _ _ => 0
  have hspec := bget_spec (s := s.store l io) h.2 dev b
  rw [h.lookup_eq io] at hl
  unfold wp at hspec
  split at hl
  · rename_i j st hst
    cases hl
    rw [hst] at hspec
    rcases hspec with ⟨hc, rfl⟩ | ⟨hn, h0, rfl⟩
    · exact .inl ⟨hc.1, hc.2, Store.setBuf_buf_self ..⟩
    · exact .inr ⟨hn, h0, Store.setBuf_buf_self ..⟩
  · cases hl

/-! ### The invariant -/

/-- The calls of `bget` by `p` for buffer `i` that are not followed by `brelse`: `p` has the sleep lock, waits for it, or has
released it in `brelse`. -/
def owed (lock : Option P) (st : BcacheSt) (p : P) (i : Fin NBUF) : Nat :=
  (if lock = some p then 1 else 0) + if st = .wait i ∨ st = .rel i then 1 else 0

structure Inv (x : Bcache P × BufRefs P) : Prop where
  ringed : ∃ l, x.1.Ringed l
  unique : ∀ i j, (x.1.buf i).dev ≠ 0 → (x.1.buf i).dev = (x.1.buf j).dev → (x.1.buf i).blockno = (x.1.buf j).blockno → i = j
  refs : ∀ i, (x.1.buf i).refcnt = (x.2.gets.map Prod.snd).count i + x.2.pins.count i
  owed : ∀ p i, x.2.gets.count (p, i) = owed (x.1.lock i) (x.1.st p) p i

theorem Inv.init : Inv ((binit : Bcache P), {}) where
  ringed := ⟨_, binit_ringed⟩
  unique _ _ hd := absurd rfl hd
  refs _ := rfl
  owed _ _ := rfl

/-- The buffers keep their blocks. -/
theorem unique_keep {x y : Fin NBUF → Buf} (hb : ∀ i, (y i).dev = (x i).dev ∧ (y i).blockno = (x i).blockno)
    (h : ∀ i j, (x i).dev ≠ 0 → (x i).dev = (x j).dev → (x i).blockno = (x j).blockno → i = j) :
    ∀ i j, (y i).dev ≠ 0 → (y i).dev = (y j).dev → (y i).blockno = (y j).blockno → i = j := by
  intro i j hi hd hn
  rw [(hb i).1] at hi hd
  rw [(hb j).1] at hd
  rw [(hb i).2, (hb j).2] at hn
  exact h i j hi hd hn

theorem setBuf_keep {x : Fin NBUF → Buf} {i : Fin NBUF} {b : Buf} (hd : b.dev = (x i).dev) (hn : b.blockno = (x i).blockno)
    (j : Fin NBUF) : (update x i b j).dev = (x j).dev ∧ (update x i b j).blockno = (x j).blockno := by
  by_cases hj : j = i
  · subst hj
    rw [Function.update_self]
    exact ⟨hd, hn⟩
  · rw [Function.update_of_ne hj]
    exact ⟨rfl, rfl⟩

/-- A buffer is assigned to a block that no buffer had. -/
theorem unique_assign {x : Fin NBUF → Buf} {i : Fin NBUF} {b : Buf} (hn : ∀ j, ¬((x j).dev = b.dev ∧ (x j).blockno = b.blockno))
    (h : ∀ i j, (x i).dev ≠ 0 → (x i).dev = (x j).dev → (x i).blockno = (x j).blockno → i = j) :
    ∀ j k, (update x i b j).dev ≠ 0 → (update x i b j).dev = (update x i b k).dev →
      (update x i b j).blockno = (update x i b k).blockno → j = k := by
  intro j k hj hd hb
  by_cases hji : j = i
  · by_cases hki : k = i
    · rw [hji, hki]
    · rw [hji, Function.update_self, Function.update_of_ne hki] at hd hb
      exact absurd ⟨hd.symm, hb.symm⟩ (hn k)
  · by_cases hki : k = i
    · rw [hki, Function.update_self, Function.update_of_ne hji] at hd hb
      exact absurd ⟨hd, hb⟩ (hn j)
    · rw [Function.update_of_ne hji] at hj
      rw [Function.update_of_ne hji, Function.update_of_ne hki] at hd hb
      exact h j k hj hd hb

/-- One buffer is counted up or down. -/
theorem refs_setBuf {x : Fin NBUF → Buf} {i : Fin NBUF} {b : Buf} {f g : Fin NBUF → Nat} (h : ∀ j, (x j).refcnt = f j)
    (hi : b.refcnt = g i) (ho : ∀ j, j ≠ i → g j = f j) (j : Fin NBUF) : (update x i b j).refcnt = g j := by
  by_cases hj : j = i
  · rw [hj, Function.update_self, hi]
  · rw [Function.update_of_ne hj, ho j hj]
    exact h j

theorem count_gets_erase {l : List (P × Fin NBUF)} {p : P} {i : Fin NBUF} (h : (p, i) ∈ l) (j : Fin NBUF) :
    (l.map Prod.snd).count j = ((l.erase (p, i)).map Prod.snd).count j + if i = j then 1 else 0 := by
  rw [((List.perm_cons_erase h).map Prod.snd).count_eq, List.map_cons, List.count_cons]
  simp

theorem Inv.bget {x : Bcache P × BufRefs P} (h : Inv x) {p : P} (hp : x.1.st p = .out) {dev b : UInt32} {i : Fin NBUF} {y : Buf}
    (hl : x.1.lookup dev b = some (.ok (i, y))) :
    Inv ((x.1.setBuf i y).goto p (.wait i), { x.2 with gets := (p, i) :: x.2.gets }) := by
  obtain ⟨l, hring⟩ := h.ringed
  have hcases := hring.lookup_cases hl
  refine ⟨⟨l, hring⟩, ?_, ?_, fun q j => ?_⟩
  · rcases hcases with ⟨-, -, rfl⟩ | ⟨hn, -, rfl⟩
    · exact unique_keep (setBuf_keep rfl rfl) h.unique
    · exact unique_assign hn h.unique
  · refine refs_setBuf h.refs ?_ fun j hj => ?_
    · have := h.refs i
      rcases hcases with ⟨-, -, rfl⟩ | ⟨-, h0, rfl⟩
      · simp only [List.map_cons, List.count_cons_self]
        omega
      · simp only [List.map_cons, List.count_cons_self]
        omega
    · simp [Ne.symm hj]
  · have ho := h.owed q j
    change ((p, i) :: x.2.gets).count (q, j) = Bcache.owed (x.1.lock j) (update x.1.st p (.wait i) q) q j
    by_cases hq : q = p
    · subst hq
      rw [hp] at ho
      rw [Function.update_self]
      by_cases hj : i = j
      · subst hj
        rw [List.count_cons_self, ho]
        simp [Bcache.owed]
      · rw [List.count_cons_of_ne (fun he => hj (congrArg Prod.snd he)), ho]
        simp [Bcache.owed, hj]
    · rw [List.count_cons_of_ne (fun he => hq (congrArg Prod.fst he).symm), ho, Function.update_of_ne hq]

/-- The sleep lock of `i` passes from `p` to nobody or back, while `p` goes to `y`. -/
theorem Inv.pass {x : Bcache P × BufRefs P} (h : Inv x) {p : P} {i : Fin NBUF} {l : Option P} {y : BcacheSt}
    (hl : ∀ q, q ≠ p → l ≠ some q ∧ x.1.lock i ≠ some q)
    (hi : Bcache.owed l y p i = Bcache.owed (x.1.lock i) (x.1.st p) p i)
    (ho : ∀ j, j ≠ i → Bcache.owed (x.1.lock j) y p j = Bcache.owed (x.1.lock j) (x.1.st p) p j) :
    Inv ({ x.1 with lock := update x.1.lock i l }.goto p y, x.2) := by
  refine ⟨h.ringed, h.unique, h.refs, fun q j => (h.owed q j).trans ?_⟩
  change _ = Bcache.owed (update x.1.lock i l j) (update x.1.st p y q) q j
  by_cases hq : q = p
  · subst hq
    rw [Function.update_self]
    by_cases hj : j = i
    · rw [hj, Function.update_self, hi]
    · rw [Function.update_of_ne hj, ho j hj]
  · rw [Function.update_of_ne hq]
    by_cases hj : j = i
    · rw [hj, Function.update_self]
      simp only [Bcache.owed, if_neg (hl q hq).1, if_neg (hl q hq).2]
    · rw [Function.update_of_ne hj]

theorem Inv.acquiresleep {x : Bcache P × BufRefs P} (h : Inv x) {p : P} {i : Fin NBUF} (hp : x.1.st p = .wait i)
    (hl : x.1.lock i = none) : Inv ({ x.1 with lock := update x.1.lock i (some p) }.goto p (.fill i), x.2) := by
  refine h.pass (fun q hq => ?_) ?_ fun j hj => ?_
  · simpa [hl] using Ne.symm hq
  · simp [Bcache.owed, hl, hp]
  · simp [Bcache.owed, hp, Ne.symm hj]

theorem Inv.brelse {x : Bcache P × BufRefs P} (h : Inv x) {p : P} {i : Fin NBUF} (hp : x.1.st p = .out)
    (hl : x.1.lock i = some p) : Inv ({ x.1 with lock := update x.1.lock i none }.goto p (.rel i), x.2) := by
  refine h.pass (fun q hq => ?_) ?_ fun j hj => ?_
  · simpa [hl] using Ne.symm hq
  · simp [Bcache.owed, hl, hp]
  · simp [Bcache.owed, hp, Ne.symm hj]

theorem Inv.put {x : Bcache P × BufRefs P} (h : Inv x) {p : P} {i : Fin NBUF} (hp : x.1.st p = .rel i) :
    Inv ((x.1.release i).goto p .out, { x.2 with gets := x.2.gets.erase (p, i) }) := by
  obtain ⟨l, hring⟩ := h.ringed
  have hbuf : (x.1.release i).buf = update x.1.buf i { x.1.buf i with refcnt := (x.1.buf i).refcnt - 1 } := by
    unfold Bcache.release
    dsimp only
    split <;> rfl
  have hrest : (x.1.release i).lock = x.1.lock ∧ (x.1.release i).st = x.1.st := by
    unfold Bcache.release
    dsimp only
    split <;> exact ⟨rfl, rfl⟩
  have hmem : (p, i) ∈ x.2.gets := by
    apply List.count_pos_iff.1
    rw [h.owed, Bcache.owed, hp]
    simp
  refine ⟨⟨_, hring.release i⟩, ?_, ?_, fun q j => ?_⟩
  · simp only [goto, hbuf]
    exact unique_keep (setBuf_keep rfl rfl) h.unique
  · simp only [goto, hbuf]
    refine refs_setBuf h.refs ?_ fun j hj => ?_
    · have := h.refs i
      rw [count_gets_erase hmem i, if_pos rfl] at this
      dsimp only
      omega
    · rw [count_gets_erase hmem j, if_neg (Ne.symm hj), Nat.add_zero]
  · have ho := h.owed q j
    change (x.2.gets.erase (p, i)).count (q, j) = Bcache.owed ((x.1.release i).lock j) (update (x.1.release i).st p .out q) q j
    rw [hrest.1, hrest.2]
    by_cases hq : q = p
    · subst hq
      rw [hp] at ho
      rw [Function.update_self]
      by_cases hj : i = j
      · subst hj
        rw [List.count_erase_self, ho]
        simp [Bcache.owed]
      · rw [List.count_erase_of_ne (fun he => hj (congrArg Prod.snd he).symm), ho]
        simp [Bcache.owed, hj]
    · rw [List.count_erase_of_ne (fun he => hq (congrArg Prod.fst he)), ho, Function.update_of_ne hq]

/-- A buffer is pinned, or not any more, or read: nothing that is owed changes. -/
theorem Inv.setBuf {x : Bcache P × BufRefs P} (h : Inv x) {i : Fin NBUF} {y : Buf} {pins : List (Fin NBUF)}
    (hd : y.dev = (x.1.buf i).dev) (hn : y.blockno = (x.1.buf i).blockno)
    (hr : y.refcnt = (x.2.gets.map Prod.snd).count i + pins.count i) (ho : ∀ j, j ≠ i → pins.count j = x.2.pins.count j) :
    Inv (x.1.setBuf i y, { x.2 with pins }) where
  ringed := h.ringed
  unique := unique_keep (setBuf_keep hd hn) h.unique
  refs := refs_setBuf h.refs hr fun j hj => by rw [ho j hj]
  owed := h.owed

theorem Inv.fill {x : Bcache P × BufRefs P} (h : Inv x) {p : P} {i : Fin NBUF} (hp : x.1.st p = .fill i) :
    Inv (x.1.goto p .out, x.2) := by
  refine ⟨h.ringed, h.unique, h.refs, fun q j => (h.owed q j).trans ?_⟩
  change _ = Bcache.owed (x.1.lock j) (update x.1.st p .out q) q j
  by_cases hq : q = p
  · subst hq
    rw [Function.update_self, hp]
    simp [Bcache.owed]
  · rw [Function.update_of_ne hq]

/-- One step of a process that pairs the calls. -/
theorem Inv.step {x y : Bcache P × BufRefs P} (h : Inv x) {e : BcacheEv P} (hp : Paired x e)
    (hs : x.1.step e = some (.ok y.1)) (hh : y.2 = x.1.hist e x.2) : Inv y := by
  obtain ⟨t, k⟩ := y
  dsimp only at hs hh
  subst hh
  cases e with
  | bget p dev blockno =>
    simp only [Bcache.step] at hs
    split at hs
    · rename_i hout
      cases hl : x.1.lookup dev blockno with
      | none => simp [hl] at hs
      | some r =>
        cases r with
        | error msg => simp [hl] at hs
        | ok z =>
          simp only [hl, Option.some.injEq, Except.ok.injEq] at hs
          subst hs
          simp only [hist, hl]
          exact h.bget hout hl
    · cases hs
  | acquiresleep p =>
    simp only [Bcache.step] at hs
    split at hs
    · rename_i i hi
      split at hs
      · cases hs
        exact h.acquiresleep hi ‹_›
      · cases hs
    · cases hs
  | fill p data =>
    simp only [Bcache.step] at hs
    split at hs
    · rename_i i hi
      cases hs
      split
      · exact (h.setBuf (i := i) (y := { x.1.buf i with data := data, valid := true }) rfl rfl (h.refs i) fun _ _ => rfl).fill hi
      · exact h.fill hi
    · cases hs
  | brelse p i =>
    simp only [Bcache.step] at hs
    split at hs
    · split at hs
      · cases hs
        exact h.brelse ‹_› ‹_›
      · cases hs
    · cases hs
  | put p =>
    simp only [Bcache.step] at hs
    split at hs
    · rename_i i hi
      cases hs
      simp only [hist, hi]
      exact h.put hi
    · cases hs
  | bpin p i =>
    simp only [Bcache.step] at hs
    split at hs
    · cases hs
      refine h.setBuf rfl rfl ?_ fun j hj => ?_
      · have := h.refs i
        rw [List.count_cons_self]
        dsimp only
        omega
      · exact List.count_cons_of_ne (Ne.symm hj)
    · cases hs
  | bunpin p i =>
    simp only [Bcache.step] at hs
    split at hs
    · cases hs
      refine h.setBuf rfl rfl ?_ fun j hj => ?_
      · have h1 := h.refs i
        have h2 := List.count_pos_iff.2 (show i ∈ x.2.pins from hp)
        rw [List.count_erase_self]
        dsimp only
        omega
      · exact List.count_erase_of_ne hj
    · cases hs

theorem Inv.reachable {x : Bcache P × BufRefs P} (hx : (bcacheLts P).Reachable x) : Inv x := by
  refine Lts.Reachable.invariant (fun y hy => ?_) (fun y e z hy hs => ?_) hx
  · have : y = (binit, {}) := hy
    rw [this]
    exact .init
  · obtain ⟨hf, hg⟩ := Lts.histStep_ok hs.2
    exact hy.step hs.1 hf hg

/-- Only a buffer that nobody refers to is assigned to another block. -/
theorem Ringed.step_keeps {l : List (Fin NBUF)} (h : s.Ringed l) {e : BcacheEv P} (hs : s.step e = some (.ok t)) {i : Fin NBUF}
    (hi : 0 < (s.buf i).refcnt) : (t.buf i).dev = (s.buf i).dev ∧ (t.buf i).blockno = (s.buf i).blockno := by
  cases e with
  | bget p dev blockno =>
    simp only [Bcache.step] at hs
    split at hs
    · cases hl : s.lookup dev blockno with
      | none => simp [hl] at hs
      | some r =>
        cases r with
        | error msg => simp [hl] at hs
        | ok z =>
          obtain ⟨j, y⟩ := z
          simp only [hl, Option.some.injEq, Except.ok.injEq] at hs
          subst hs
          rcases h.lookup_cases hl with ⟨-, -, rfl⟩ | ⟨-, h0, -⟩
          · refine setBuf_keep (x := s.buf) ?_ ?_ i <;> rfl
          · have hne : i ≠ j := by
              rintro rfl
              omega
            simp [goto, setBuf, Function.update_of_ne hne]
    · cases hs
  | acquiresleep p =>
    simp only [Bcache.step] at hs
    split at hs
    · split at hs
      · cases hs
        exact ⟨rfl, rfl⟩
      · cases hs
    · cases hs
  | fill p data =>
    simp only [Bcache.step] at hs
    split at hs
    · cases hs
      split
      · refine setBuf_keep (x := s.buf) ?_ ?_ i <;> rfl
      · exact ⟨rfl, rfl⟩
    · cases hs
  | brelse p j =>
    simp only [Bcache.step] at hs
    split at hs
    · split at hs
      · cases hs
        exact ⟨rfl, rfl⟩
      · cases hs
    · cases hs
  | put p =>
    simp only [Bcache.step] at hs
    split at hs
    · rename_i j hj
      cases hs
      unfold Bcache.release
      dsimp only [goto]
      split <;>
      · refine setBuf_keep (x := s.buf) ?_ ?_ i <;> rfl
    · cases hs
  | bpin p j | bunpin p j =>
    simp only [Bcache.step] at hs
    split at hs
    · cases hs
      refine setBuf_keep (x := s.buf) ?_ ?_ i <;> rfl
    · cases hs

end Bcache

/-- In every state of a run the links form a ring of all buffers in both directions, a block is cached once, the count of a buffer
is the number of calls of `bget` and `bpin` that are not taken back, and no step assigns a buffer that is counted to another
block. -/
theorem bcache_coherent {P : Type} [DecidableEq P] {x : Bcache P × BufRefs P} (hx : (bcacheLts P).Reachable x) :
    (∃ l, Linked.walk x.1.list.next NBUF none = some l ∧ Linked.walk x.1.list.prev NBUF none = some l.reverse ∧ l.Nodup ∧
      ∀ i, i ∈ l) ∧
    (∀ i j, (x.1.buf i).dev ≠ 0 → (x.1.buf i).dev = (x.1.buf j).dev → (x.1.buf i).blockno = (x.1.buf j).blockno → i = j) ∧
    (∀ i, (x.1.buf i).refcnt = (x.2.gets.map Prod.snd).count i + x.2.pins.count i) ∧
    ∀ e y, (bcacheLts P).step x e (.ok y) → ∀ i, 0 < (x.1.buf i).refcnt →
      (y.1.buf i).dev = (x.1.buf i).dev ∧ (y.1.buf i).blockno = (x.1.buf i).blockno := by
  have h := Bcache.Inv.reachable hx
  obtain ⟨l, hring⟩ := h.ringed
  refine ⟨⟨l, ?_, ?_, hring.1.nodup, hring.2⟩, h.unique, h.refs, fun e y hs i hi => ?_⟩
  · exact hring.1.walk_next hring.length_le
  · exact hring.1.walk_prev hring.length_le
  · exact hring.step_keeps (Lts.histStep_ok hs.2).1 hi

/-- Two processes read a block; the first pins it and gives it back. -/
def readPinRun : List (BcacheEv (Fin 2)) :=
  [.bget 0 1 5, .acquiresleep 0, .bget 1 1 5, .fill 0 (fun _ => 7), .bpin 0 ⟨0, NBUF_pos⟩, .brelse 0 ⟨0, NBUF_pos⟩, .put 0]

theorem bcache_coherent_readPinRun : ∃ x, (bcacheLts (Fin 2)).Reachable x ∧ (x.1.buf ⟨0, by decide⟩).refcnt = 2 ∧
    (x.2.gets.map Prod.snd).count ⟨0, by decide⟩ + x.2.pins.count ⟨0, by decide⟩ = 2 := by
  have hany : (Lts.replay (Lts.histStep Bcache.step Bcache.hist) (fun x e => decide (Paired x e)) (Bcache.binit, {}) readPinRun).any
      (fun x => (x.1.buf ⟨0, by decide⟩).refcnt == 2) = true := by decide +kernel
  obtain ⟨x, hx, h2⟩ := Lts.Reachable.replay_any (I := fun x => x = (Bcache.binit, {})) (fun _ _ => of_decide_eq_true) rfl hany
  have hcount : (x.1.buf ⟨0, by decide⟩).refcnt = 2 := by simpa using h2
  exact ⟨x, hx, hcount, ((bcache_coherent hx).2.2.1 ⟨0, by decide⟩).symm.trans hcount⟩

end Xv6
