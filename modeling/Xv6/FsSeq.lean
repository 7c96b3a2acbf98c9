import Xv6.Fs
import Xv6.FsSys

/-!
# File-system code that runs alone

While no other process touches the blocks, the code of `fs.c` works on the contents of the blocks (`view`), wherever they are kept.
`Prog.Runs` is a run of a program over the view; a buffer is the block that it is held for, and any buffer that is not held may be given
out.  `Prog.swp` is the precondition: every run ends in the postcondition, and the program meets none of the panics of `fs.c`, reads no
block that it holds already, uses no buffer that it does not hold, and logs no block of the log.

The room of the log and of the buffer cache is not part of this layer.  A `log_write` that would panic with "too big a transaction" and
a `bread` that would panic with "bget: no buffers" go on here: the first happens when `writei` is asked for more blocks than the log
takes, which `filewrite` avoids by writing in pieces.
-/

namespace Xv6

open Function (update)

/-- The contents of the blocks, the buffers that are held with their blocks, and the bytes that the source of a `write` has left up to
the first one that cannot be read; after a copy has failed, the source is anywhere.  The blocks below `low` are not for files. -/
structure Seq where
  view : UInt32 → Block
  held : Fin NBUF → Option UInt32
  src : List UInt8
  low : Nat

namespace Seq

def hold (s : Seq) (i : Fin NBUF) (b : UInt32) : Seq := { s with held := update s.held i (some b) }

def drop (s : Seq) (i : Fin NBUF) : Seq := { s with held := update s.held i none }

def put (s : Seq) (b : UInt32) (d : Block) : Seq := { s with view := update s.view b d }

/-- The process does not hold the block. -/
def Free (s : Seq) (b : UInt32) : Prop := ∀ i, s.held i ≠ some b

/-- `either_copyin` of `m` bytes into a block: all of them, or those that can be read. -/
def taken (s : Seq) (b : UInt32) (off m : Nat) : Seq :=
  { s.put b (overwrite (s.view b) off (s.src.take m)) with src := s.src.drop m }

@[simp] theorem hold_view (s : Seq) (i : Fin NBUF) (b : UInt32) : (s.hold i b).view = s.view := rfl

@[simp] theorem hold_src (s : Seq) (i : Fin NBUF) (b : UInt32) : (s.hold i b).src = s.src := rfl

@[simp] theorem put_held (s : Seq) (b : UInt32) (d : Block) : (s.put b d).held = s.held := rfl

@[simp] theorem put_src (s : Seq) (b : UInt32) (d : Block) : (s.put b d).src = s.src := rfl

@[simp] theorem put_view (s : Seq) (b : UInt32) (d : Block) : (s.put b d).view = update s.view b d := rfl

@[simp] theorem hold_held (s : Seq) (i : Fin NBUF) (b : UInt32) : (s.hold i b).held i = some b := Function.update_self ..

theorem hold_drop {s : Seq} {i : Fin NBUF} (h : s.held i = none) (b : UInt32) : (s.hold i b).drop i = s := by
  simp [hold, drop, ← h]

theorem Free.hold {s : Seq} {a b : UInt32} (h : s.Free a) (hab : a ≠ b) (i : Fin NBUF) : (s.hold i b).Free a := by
  intro j hj
  by_cases hji : j = i
  · rw [hji, hold_held] at hj
    exact hab (Option.some.inj hj).symm
  · exact h j (by simpa [Seq.hold, hji] using hj)

end Seq

namespace Prog

variable {α β : Type}

/-- The program, started in a state, may end with a value in another state. -/
def Runs : Prog α → Seq → α → Seq → Prop
  | .pure a, s, x, t => x = a ∧ t = s
  | .panic _, _, _, _ => False
  | .bread b k, s, x, t => ∃ i, s.held i = none ∧ s.Free b ∧ (k i).Runs (s.hold i b) x t
  | .data i k, s, x, t => ∃ b, s.held i = some b ∧ (k (s.view b)).Runs s x t
  | .store i d k, s, x, t => ∃ b, s.held i = some b ∧ k.Runs (s.put b d) x t
  | .copyin i off m k, s, x, t => ∃ b, s.held i = some b ∧
    if m ≤ s.src.length then (k true).Runs (s.taken b off m) x t else ∃ src, (k false).Runs { s.taken b off m with src := src } x t
  | .copyout i _ _ k, s, x, t => s.held i ≠ none ∧ ∃ ok, (k ok).Runs s x t
  | .logWrite i k, s, x, t => s.held i ≠ none ∧ k.Runs s x t
  | .brelse i k, s, x, t => s.held i ≠ none ∧ k.Runs (s.drop i) x t
  -- only in `commit`
  | .bwrite .., _, _, _ | .bunpin .., _, _, _ | .readLog _, _, _, _ | .clearHead _, _, _, _ => False

/-- The panics of `log_write` and `bget` for lack of room are not counted. -/
def swp : Prog α → (α → Seq → Prop) → Seq → Prop
  | .pure a, Q, s => Q a s
  | .panic _, _, _ => False
  | .bread b k, Q, s => s.Free b ∧ ∀ i, s.held i = none → (k i).swp Q (s.hold i b)
  | .data i k, Q, s => ∃ b, s.held i = some b ∧ (k (s.view b)).swp Q s
  | .store i d k, Q, s => ∃ b, s.held i = some b ∧ k.swp Q (s.put b d)
  | .copyin i off m k, Q, s => ∃ b, s.held i = some b ∧
    if m ≤ s.src.length then (k true).swp Q (s.taken b off m) else ∀ src, (k false).swp Q { s.taken b off m with src := src }
  | .copyout i _ _ k, Q, s => s.held i ≠ none ∧ ∀ ok, (k ok).swp Q s
  | .logWrite i k, Q, s => (∃ b, s.held i = some b ∧ s.low ≤ b.toNat) ∧ k.swp Q s
  | .brelse i k, Q, s => s.held i ≠ none ∧ k.swp Q (s.drop i)
  | .bwrite .., _, _ | .bunpin .., _, _ | .readLog _, _, _ | .clearHead _, _, _ => False

/-- A run that takes the first buffer that is not held; `none` also if it fails, or if a copy does. -/
def result : Prog α → Seq → Option (α × Seq)
  | .pure a, s => some (a, s)
  | .bread b k, s =>
    match (List.finRange NBUF).find? fun i => s.held i = none with
    | some i => if ∀ j, s.held j ≠ some b then (k i).result (s.hold i b) else none
    | none => none
  | .data i k, s =>
    match s.held i with
    | some b => (k (s.view b)).result s
    | none => none
  | .store i d k, s =>
    match s.held i with
    | some b => k.result (s.put b d)
    | none => none
  | .copyin i off m k, s =>
    match s.held i with
    | some b => if m ≤ s.src.length then (k true).result (s.taken b off m) else none
    | none => none
  | .copyout i _ _ k, s => if s.held i ≠ none then (k true).result s else none
  | .logWrite i k, s => if s.held i ≠ none then k.result s else none
  | .brelse i k, s => if s.held i ≠ none then k.result (s.drop i) else none
  | .panic _, _ | .bwrite .., _ | .bunpin .., _ | .readLog _, _ | .clearHead _, _ => none

theorem result_runs {p : Prog α} {s t : Seq} {x : α} (h : p.result s = some (x, t)) : p.Runs s x t := by
  induction p generalizing s with
  | pure a =>
    cases h
    exact ⟨rfl, rfl⟩
  | panic msg => cases h
  | bread b k ih =>
    simp only [result] at h
    split at h
    · rename_i i hi
      split at h
      · exact ⟨i, by simpa using List.find?_some hi, ‹_›, ih i h⟩
      · cases h
    · cases h
  | data i k ih =>
    simp only [result] at h
    split at h
    · exact ⟨_, ‹_›, ih _ h⟩
    · cases h
  | store i d k ih =>
    simp only [result] at h
    split at h
    · exact ⟨_, ‹_›, ih h⟩
    · cases h
  | copyin i off m k ih =>
    simp only [result] at h
    split at h
    · rename_i b hb
      split at h
      · refine ⟨b, hb, ?_⟩
        rw [if_pos ‹_›]
        exact ih _ h
      · cases h
    · cases h
  | copyout i off m k ih =>
    simp only [result] at h
    split at h
    · exact ⟨‹_›, true, ih true h⟩
    · cases h
  | logWrite i k ih =>
    simp only [result] at h
    split at h
    · exact ⟨‹_›, ih h⟩
    · cases h
  | brelse i k ih =>
    simp only [result] at h
    split at h
    · exact ⟨‹_›, ih h⟩
    · cases h
  | bwrite i k ih => cases h
  | bunpin i k ih => cases h
  | readLog k ih => cases h
  | clearHead k ih => cases h

theorem swp_runs {p : Prog α} {Q : α → Seq → Prop} {s t : Seq} {x : α} (h : p.swp Q s) (hr : p.Runs s x t) : Q x t := by
  induction p generalizing s with
  | pure a =>
    obtain ⟨rfl, rfl⟩ := hr
    exact h
  | panic msg => exact h.elim
  | bread b k ih =>
    obtain ⟨i, hi, -, hr⟩ := hr
    exact ih i (h.2 i hi) hr
  | data i k ih =>
    obtain ⟨b, hb, hk⟩ := h
    obtain ⟨b', hb', hr⟩ := hr
    rw [hb, Option.some.injEq] at hb'
    subst hb'
    exact ih _ hk hr
  | store i d k ih =>
    obtain ⟨b, hb, hk⟩ := h
    obtain ⟨b', hb', hr⟩ := hr
    rw [hb, Option.some.injEq] at hb'
    subst hb'
    exact ih hk hr
  | copyin i off m k ih =>
    obtain ⟨b, hb, hk⟩ := h
    obtain ⟨b', hb', hr⟩ := hr
    rw [hb, Option.some.injEq] at hb'
    subst hb'
    by_cases hm : m ≤ s.src.length
    · rw [if_pos hm] at hk hr
      exact ih _ hk hr
    · rw [if_neg hm] at hk hr
      obtain ⟨src, hr⟩ := hr
      exact ih _ (hk src) hr
  | copyout i off m k ih =>
    obtain ⟨-, ok, hr⟩ := hr
    exact ih ok (h.2 ok) hr
  | logWrite i k ih => exact ih h.2 hr.2
  | brelse i k ih => exact ih h.2 hr.2
  | bwrite i k ih => exact h.elim
  | bunpin i k ih => exact h.elim
  | readLog k ih => exact h.elim
  | clearHead k ih => exact h.elim

@[simp] theorem swp_pure (a : α) (Q : α → Seq → Prop) (s : Seq) : swp (Pure.pure a) Q s = Q a s := rfl

@[simp] theorem swp_bind (p : Prog α) (f : α → Prog β) (Q : β → Seq → Prop) (s : Seq) :
    swp (p >>= f) Q s ↔ p.swp (fun a => (f a).swp Q) s := by
  change (p.bind f).swp Q s ↔ _
  induction p generalizing s with
  | pure a => exact .rfl
  | panic msg => exact .rfl
  | bread b k ih => exact and_congr_right fun _ => forall_congr' fun i => imp_congr_right fun _ => ih i _
  | data i k ih => exact exists_congr fun b => and_congr_right fun _ => ih _ _
  | store i d k ih => exact exists_congr fun b => and_congr_right fun _ => ih _
  | copyin i off m k ih =>
    refine exists_congr fun b => and_congr_right fun _ => ?_
    by_cases hm : m ≤ s.src.length
    · rw [if_pos hm, if_pos hm]
      exact ih _ _
    · rw [if_neg hm, if_neg hm]
      exact forall_congr' fun src => ih _ _
  | copyout i off m k ih => exact and_congr_right fun _ => forall_congr' fun ok => ih ok _
  | logWrite i k ih => exact and_congr_right fun _ => ih _
  | brelse i k ih => exact and_congr_right fun _ => ih _
  | bwrite i k ih => exact .rfl
  | bunpin i k ih => exact .rfl
  | readLog k ih => exact .rfl
  | clearHead k ih => exact .rfl

theorem swp_mono {p : Prog α} {Q Q' : α → Seq → Prop} {s : Seq} (h : p.swp Q s) (hQ : ∀ a t, Q a t → Q' a t) : p.swp Q' s := by
  induction p generalizing s with
  | pure a => exact hQ a s h
  | panic msg => exact h
  | bread b k ih => exact ⟨h.1, fun i hi => ih i (h.2 i hi)⟩
  | data i k ih => exact h.imp fun b hb => ⟨hb.1, ih _ hb.2⟩
  | store i d k ih => exact h.imp fun b hb => ⟨hb.1, ih hb.2⟩
  | copyin i off m k ih =>
    obtain ⟨b, hb, hk⟩ := h
    refine ⟨b, hb, ?_⟩
    by_cases hm : m ≤ s.src.length
    · rw [if_pos hm] at hk ⊢
      exact ih _ hk
    · rw [if_neg hm] at hk ⊢
      exact fun src => ih _ (hk src)
  | copyout i off m k ih => exact ⟨h.1, fun ok => ih ok (h.2 ok)⟩
  | logWrite i k ih => exact ⟨h.1, ih h.2⟩
  | brelse i k ih => exact ⟨h.1, ih h.2⟩
  | bwrite i k ih => exact h
  | bunpin i k ih => exact h
  | readLog k ih => exact h
  | clearHead k ih => exact h

end Prog

/-! ### One rule for each call -/

namespace Fs

variable {α : Type} {Q : α → Seq → Prop} {s : Seq} {i : Fin NBUF} {b : UInt32}

theorem bread_swp {f : Fin NBUF → Prog α} (hb : s.Free b) (hf : ∀ i, s.held i = none → (f i).swp Q (s.hold i b)) :
    (bread b >>= f).swp Q s :=
  ⟨hb, hf⟩

theorem data_swp {f : Block → Prog α} (hf : (f (s.view b)).swp Q (s.hold i b)) : (data i >>= f).swp Q (s.hold i b) :=
  ⟨b, Seq.hold_held .., hf⟩

theorem store_swp {f : Unit → Prog α} {d : Block} (hf : (f ()).swp Q ((s.put b d).hold i b)) :
    (store i d >>= f).swp Q (s.hold i b) :=
  ⟨b, Seq.hold_held .., hf⟩

theorem copyin_swp {f : Bool → Prog α} {off m : Nat} (hok : m ≤ s.src.length → (f true).swp Q ((s.taken b off m).hold i b))
    (hfail : s.src.length < m → ∀ src, (f false).swp Q (Seq.hold { s.taken b off m with src := src } i b)) :
    (copyin i off m >>= f).swp Q (s.hold i b) := by
  refine ⟨b, Seq.hold_held .., ?_⟩
  by_cases hm : m ≤ s.src.length
  · exact (if_pos hm).symm ▸ hok hm
  · exact (if_neg hm).symm ▸ hfail (Nat.lt_of_not_le hm)

theorem copyout_swp {f : Bool → Prog α} {off m : Nat} (hf : ∀ ok, (f ok).swp Q (s.hold i b)) :
    (copyout i off m >>= f).swp Q (s.hold i b) :=
  ⟨by rw [Seq.hold_held]; exact Option.some_ne_none b, hf⟩

theorem logWrite_swp {f : Unit → Prog α} (hb : s.low ≤ b.toNat) (hf : (f ()).swp Q (s.hold i b)) :
    (logWrite i >>= f).swp Q (s.hold i b) :=
  ⟨⟨b, Seq.hold_held .., hb⟩, hf⟩

theorem brelse_swp {f : Unit → Prog α} (hi : s.held i = none) (hf : (f ()).swp Q s) : (brelse i >>= f).swp Q (s.hold i b) := by
  refine ⟨by rw [Seq.hold_held]; exact Option.some_ne_none b, ?_⟩
  rw [Seq.hold_drop hi]
  exact hf

/-- The end of a use of a buffer that was changed: log it and release it. -/
theorem logged_swp {d : Block} {p : Prog α} (hi : s.held i = none) (hb : s.low ≤ b.toNat) (hp : p.swp Q (s.put b d)) :
    (do store i d; logWrite i; brelse i; p).swp Q (s.hold i b) :=
  store_swp (logWrite_swp (s := s.put b d) hb (brelse_swp (s := s.put b d) hi hp))

end Fs

end Xv6
