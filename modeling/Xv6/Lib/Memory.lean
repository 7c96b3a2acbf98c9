import Mathlib.Algebra.Order.Group.Nat
import Mathlib.Logic.Function.Basic

/-!
# Bytes at 64-bit addresses

A memory gives a byte to each address, and addresses wrap around.  `Relocated` says that the bytes of one range have become those of
another one; copying byte by byte does that from either end, as long as no byte is overwritten before it is read
(`copyUp_relocated`, `copyDown_relocated`).  `CStr` says that a string with its null is at an address.
-/

namespace Xv6

open Function (update)

abbrev Memory := UInt64 → UInt8

namespace Memory

variable {m m' m'' : Memory} {a d s : UInt64} {n : Nat}

/-! ### Addresses -/

theorem add_ofNat (a : UInt64) (i j : Nat) : a + .ofNat i + .ofNat j = a + .ofNat (i + j) := by
  rw [UInt64.ofNat_add, UInt64.add_assoc]

theorem add_ofNat_succ (a : UInt64) (i : Nat) : a + 1 + .ofNat i = a + .ofNat (i + 1) := by
  rw [Nat.add_comm i 1]
  exact add_ofNat a 1 i

@[simp] theorem add_ofNat_zero (a : UInt64) : a + .ofNat 0 = a := UInt64.add_zero a

theorem ofNat_inj {i j : Nat} (hi : i < 2 ^ 64) (hj : j < 2 ^ 64) (h : a + .ofNat i = a + .ofNat j) : i = j := by
  have hij : UInt64.ofNat i = UInt64.ofNat j := UInt64.add_right_inj a |>.1 h
  have hnat := congrArg UInt64.toNat hij
  rwa [UInt64.toNat_ofNat_of_lt' hi, UInt64.toNat_ofNat_of_lt' hj] at hnat

/-- Addresses of a range that does not wrap around. -/
theorem toNat_add {i : Nat} (h : a.toNat + i < 2 ^ 64) : (a + .ofNat i).toNat = a.toNat + i := by
  have hi : i < 2 ^ 64 := by omega
  rw [UInt64.toNat_add, UInt64.toNat_ofNat_of_lt' hi]
  exact Nat.mod_eq_of_lt h

/-! ### Copying -/

/-- Upwards, from the first byte of the ranges. -/
def copyUp : Nat → UInt64 → UInt64 → Memory → Memory
  | 0, _, _, m => m
  | n + 1, d, s, m => copyUp n (d + 1) (s + 1) (update m d (m s))

/-- Downwards, from the ends of the ranges. -/
def copyDown : Nat → UInt64 → UInt64 → Memory → Memory
  | 0, _, _, m => m
  | n + 1, d, s, m => copyDown n (d - 1) (s - 1) (update m (d - 1) (m (s - 1)))

/-- The `n` bytes from `d` are those that were at `s`, and no other byte has changed. -/
structure Relocated (d s : UInt64) (n : Nat) (m m' : Memory) : Prop where
  bytes : ∀ i < n, m' (d + .ofNat i) = m (s + .ofNat i)
  frame : ∀ a, (∀ i < n, a ≠ d + .ofNat i) → m' a = m a

/-- There is only one such memory. -/
theorem Relocated.unique (h : Relocated d s n m m') (h' : Relocated d s n m m'') : m' = m'' := by
  funext a
  by_cases ha : ∃ i < n, a = d + .ofNat i
  · obtain ⟨i, hi, rfl⟩ := ha
    rw [h.bytes i hi, h'.bytes i hi]
  · have hne : ∀ i < n, a ≠ d + .ofNat i := fun i hi he => ha ⟨i, hi, he⟩
    rw [h.frame a hne, h'.frame a hne]

/-- No byte is overwritten before it is read if each byte goes to an address that no later one comes from. -/
theorem copyUp_relocated (hn : n ≤ 2 ^ 64) (hsafe : ∀ i j, i < j → j < n → d + .ofNat i ≠ s + .ofNat j) :
    Relocated d s n m (copyUp n d s m) := by
  induction n generalizing m d s with
  | zero => exact ⟨fun i hi => absurd hi (Nat.not_lt_zero i), fun a _ => rfl⟩
  | succ n ih =>
    have hih : Relocated (d + 1) (s + 1) n (update m d (m s)) (copyUp n (d + 1) (s + 1) (update m d (m s))) := by
      apply ih (by omega)
      intro i j hij hj
      rw [add_ofNat_succ, add_ofNat_succ]
      exact hsafe (i + 1) (j + 1) (by omega) (by omega)
    constructor
    · intro i hi
      show copyUp n (d + 1) (s + 1) (update m d (m s)) _ = _
      cases i with
      | zero =>
        have hfirst : ∀ i < n, d ≠ d + 1 + .ofNat i := by
          intro i hi he
          rw [add_ofNat_succ] at he
          have := ofNat_inj (a := d) (i := 0) (j := i + 1) (by omega) (by omega) (by rwa [add_ofNat_zero])
          omega
        rw [add_ofNat_zero, add_ofNat_zero, hih.frame d hfirst, Function.update_self]
      | succ i =>
        have hsrc : s + .ofNat (i + 1) ≠ d := by
          have := hsafe 0 (i + 1) (by omega) hi
          rw [add_ofNat_zero] at this
          exact this.symm
        rw [← add_ofNat_succ, hih.bytes i (by omega), add_ofNat_succ, Function.update_of_ne hsrc]
    · intro a ha
      have hd : a ≠ d := by
        have := ha 0 (by omega)
        rwa [add_ofNat_zero] at this
      show copyUp n (d + 1) (s + 1) (update m d (m s)) a = m a
      rw [hih.frame a fun i hi => ?_, Function.update_of_ne hd]
      rw [add_ofNat_succ]
      exact ha (i + 1) (by omega)

/-- Downwards, each byte goes to an address that no earlier one comes from. -/
theorem copyDown_relocated (hn : n ≤ 2 ^ 64) (hsafe : ∀ i j, i < j → j < n → d + .ofNat j ≠ s + .ofNat i) :
    Relocated d s n m (copyDown n (d + .ofNat n) (s + .ofNat n) m) := by
  induction n generalizing m with
  | zero => exact ⟨fun i hi => absurd hi (Nat.not_lt_zero i), fun a _ => rfl⟩
  | succ n ih =>
    have hlast : ∀ x : UInt64, x + .ofNat (n + 1) - 1 = x + .ofNat n := by
      intro x
      rw [UInt64.ofNat_add, ← UInt64.add_assoc]
      exact UInt64.add_sub_cancel _ 1
    have hih := @ih (update m (d + .ofNat n) (m (s + .ofNat n))) (by omega) fun i j hij hj => hsafe i j hij (by omega)
    have hrun : copyDown (n + 1) (d + .ofNat (n + 1)) (s + .ofNat (n + 1)) m =
        copyDown n (d + .ofNat n) (s + .ofNat n) (update m (d + .ofNat n) (m (s + .ofNat n))) := by
      rw [copyDown, hlast, hlast]
    rw [hrun]
    constructor
    · intro i hi
      by_cases hin : i < n
      · rw [hih.bytes i hin, Function.update_of_ne (hsafe i n hin (by omega)).symm]
      · obtain rfl : i = n := by omega
        have hne : ∀ j < i, d + .ofNat i ≠ d + .ofNat j := by
          intro j hj he
          have := ofNat_inj (by omega) (by omega) he
          omega
        rw [hih.frame _ hne, Function.update_self]
    · intro a ha
      rw [hih.frame a fun i hi => ha i (by omega), Function.update_of_ne (ha n (by omega))]

/-! ### Reading and writing many bytes -/

/-- The `n` bytes from `a`. -/
def load (m : Memory) (a : UInt64) (n : Nat) : List UInt8 := (List.range n).map fun i => m (a + .ofNat i)

def store (m : Memory) (a : UInt64) : List UInt8 → Memory
  | [] => m
  | c :: l => store (update m a c) (a + 1) l

/-- The bytes `l` are at `a`. -/
def Holds (m : Memory) (a : UInt64) (l : List UInt8) : Prop := ∀ i (h : i < l.length), m (a + .ofNat i) = l[i]

variable {l l' : List UInt8}

@[simp] theorem holds_nil : Holds m a [] := fun _ h => absurd h (Nat.not_lt_zero _)

theorem holds_append : Holds m a (l ++ l') ↔ Holds m a l ∧ Holds m (a + .ofNat l.length) l' := by
  constructor
  · intro h
    constructor
    · intro i hi
      rw [h i (by rw [List.length_append]; omega), List.getElem_append_left hi]
    · intro i hi
      rw [add_ofNat, h (l.length + i) (by rw [List.length_append]; omega), List.getElem_append_right (by omega)]
      congr 1
      omega
  · rintro ⟨h, h'⟩ i hi
    rw [List.length_append] at hi
    by_cases hil : i < l.length
    · rw [List.getElem_append_left hil]
      exact h i hil
    · have hlast := h' (i - l.length) (by omega)
      rw [add_ofNat, Nat.add_sub_cancel' (Nat.le_of_not_lt hil)] at hlast
      rw [List.getElem_append_right (by omega)]
      exact hlast

/-- A byte is written behind them. -/
theorem Holds.update_of_le (h : Holds m a l) {j : Nat} (hlj : l.length ≤ j) (hj : j < 2 ^ 64) (c : UInt8) :
    Holds (update m (a + .ofNat j) c) a l := by
  intro i hi
  have hij : i ≠ j := by omega
  rw [Function.update_of_ne fun he => hij (ofNat_inj (by omega) hj he)]
  exact h i hi

theorem Holds.snoc (h : Holds m a l) (hl : l.length < 2 ^ 64) (c : UInt8) : Holds (update m (a + .ofNat l.length) c) a (l ++ [c]) := by
  refine holds_append.2 ⟨h.update_of_le (Nat.le_refl _) hl c, fun i hi => ?_⟩
  obtain rfl : i = 0 := by simpa using hi
  rw [add_ofNat_zero, Function.update_self]
  rfl

theorem Holds.load_eq (h : Holds m a l) : m.load a l.length = l := by
  apply List.ext_getElem
  · rw [load, List.length_map, List.length_range]
  · intro i hi hi'
    simp only [load, List.getElem_map, List.getElem_range]
    exact h i hi'

theorem Holds.congr (h : Holds m a l) (hm : ∀ i < l.length, m' (a + .ofNat i) = m (a + .ofNat i)) : Holds m' a l :=
  fun i hi => (hm i hi).trans (h i hi)

theorem Holds.relocated (h : Holds m s l) (hr : Relocated d s l.length m m') : Holds m' d l :=
  fun i hi => (hr.bytes i hi).trans (h i hi)

theorem store_of_ne {x : UInt64} (h : ∀ i < l.length, x ≠ a + .ofNat i) : store m a l x = m x := by
  induction l generalizing m a with
  | nil => rfl
  | cons c l ih =>
    have hxa : x ≠ a := by
      have := h 0 (by simp)
      rwa [add_ofNat_zero] at this
    rw [store, ih fun i hi => ?_, Function.update_of_ne hxa]
    rw [add_ofNat_succ]
    exact h (i + 1) (Nat.succ_lt_succ hi)

theorem holds_store (hl : l.length ≤ 2 ^ 64) : Holds (store m a l) a l := by
  induction l generalizing m a with
  | nil => exact holds_nil
  | cons c l ih =>
    intro i hi
    rw [List.length_cons] at hl hi
    rw [store]
    cases i with
    | zero =>
      rw [store_of_ne fun j hj he => ?_, add_ofNat_zero, Function.update_self, List.getElem_cons_zero]
      rw [add_ofNat_succ] at he
      have := ofNat_inj (by omega) (by omega) he
      omega
    | succ i =>
      rw [← add_ofNat_succ, ih (by omega) i (by omega), List.getElem_cons_succ]

/-! ### Strings -/

/-- The bytes of `l`, none of them a null, and a null behind them. -/
def CStr (m : Memory) (a : UInt64) : List UInt8 → Prop
  | [] => m a = 0
  | c :: l => m a = c ∧ c ≠ 0 ∧ CStr m (a + 1) l

theorem CStr.ne_zero (h : CStr m a l) : ∀ c ∈ l, c ≠ 0 := by
  induction l generalizing a with
  | nil => simp
  | cons c l ih =>
    intro x hx
    rcases List.mem_cons.1 hx with rfl | hx
    · exact h.2.1
    · exact ih h.2.2 x hx

theorem CStr.holds (h : CStr m a l) : Holds m a l := by
  induction l generalizing a with
  | nil => exact holds_nil
  | cons c l ih =>
    intro i hi
    cases i with
    | zero => simpa using h.1
    | succ i =>
      rw [← add_ofNat_succ]
      exact ih h.2.2 i (Nat.lt_of_succ_lt_succ hi)

theorem CStr.null (h : CStr m a l) : m (a + .ofNat l.length) = 0 := by
  induction l generalizing a with
  | nil =>
    rw [List.length_nil, add_ofNat_zero]
    exact h
  | cons c l ih =>
    rw [List.length_cons, ← add_ofNat_succ]
    exact ih h.2.2

/-- The string is made of its bytes. -/
theorem Holds.cStr (h : Holds m a l) (hnull : m (a + .ofNat l.length) = 0) (hl : ∀ c ∈ l, c ≠ 0) : CStr m a l := by
  induction l generalizing a with
  | nil =>
    rw [List.length_nil, add_ofNat_zero] at hnull
    exact hnull
  | cons c l ih =>
    obtain ⟨hfirst, hrest⟩ := holds_append.1 (show Holds m a ([c] ++ l) from h)
    refine ⟨?_, hl c List.mem_cons_self, ih hrest ?_ fun x hx => hl x (List.mem_cons_of_mem _ hx)⟩
    · have := hfirst 0 (by simp)
      rwa [add_ofNat_zero] at this
    · rw [add_ofNat_succ]
      exact hnull

/-- A string whose bytes have not changed. -/
theorem CStr.congr (h : CStr m a l) (hm : ∀ i ≤ l.length, m' (a + .ofNat i) = m (a + .ofNat i)) : CStr m' a l := by
  apply (h.holds.congr fun i hi => hm i (by omega)).cStr
  · rw [hm _ (Nat.le_refl _), h.null]
  · exact h.ne_zero

end Memory

end Xv6
