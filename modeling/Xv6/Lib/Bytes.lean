import Mathlib.Logic.Function.Basic
import Mathlib.Tactic.Ring

/-!
# Numbers in a byte memory

Little-endian numbers of any width.  A store is seen by a load at its address (`load_store`), and not by one of other bytes
(`load_store_of_apart`).
-/

namespace Xv6

open Function (update)

abbrev Bytes := Nat → UInt8

namespace Bytes

/-- The number in the `w` bytes from `a`. -/
def load (m : Bytes) : Nat → Nat → Nat
  | _, 0 => 0
  | a, w + 1 => (m a).toNat + 256 * load m (a + 1) w

/-- The low `w` bytes of `v` at `a`. -/
def store : Bytes → Nat → Nat → Nat → Bytes
  | m, _, 0, _ => m
  | m, a, w + 1, v => store (update m a (UInt8.ofNat v)) (a + 1) w (v / 256)

theorem store_of_lt (m : Bytes) {a x : Nat} (w v : Nat) (h : x < a) : store m a w v x = m x := by
  induction w generalizing m a v with
  | zero => rfl
  | succ w ih =>
    rw [store, ih _ _ (by omega), Function.update_of_ne (by omega)]

theorem store_of_le (m : Bytes) {a w x : Nat} (v : Nat) (h : a + w ≤ x) : store m a w v x = m x := by
  induction w generalizing m a v with
  | zero => rfl
  | succ w ih =>
    rw [store, ih _ _ (by omega), Function.update_of_ne (by omega)]

theorem load_congr {m m' : Bytes} {a w : Nat} (h : ∀ x, a ≤ x → x < a + w → m' x = m x) : load m' a w = load m a w := by
  induction w generalizing a with
  | zero => rfl
  | succ w ih =>
    rw [load, load, h a (by omega) (by omega), ih fun x hx hlt => h x (by omega) (by omega)]

theorem load_store_of_apart (m : Bytes) {a b w w' : Nat} (v : Nat) (h : a + w ≤ b ∨ b + w' ≤ a) :
    load (store m a w v) b w' = load m b w' := by
  apply load_congr
  intro x hx hlt
  rcases h with h | h
  · exact store_of_le m v (by omega)
  · exact store_of_lt m w v (by omega)

theorem load_store (m : Bytes) (a w v : Nat) : load (store m a w v) a w = v % 256 ^ w := by
  induction w generalizing m a v with
  | zero => rw [load, Nat.pow_zero, Nat.mod_one]
  | succ w ih =>
    rw [load, store, ih, store_of_lt _ _ _ (Nat.lt_succ_self a), Function.update_self, Nat.pow_succ, Nat.mul_comm (256 ^ w),
      Nat.mod_mul]
    rfl

/-- The number whose bytes are there. -/
theorem load_of_bytes {m : Bytes} {a w v : Nat} (h : ∀ j < w, m (a + j) = UInt8.ofNat (v / 256 ^ j)) : load m a w = v % 256 ^ w := by
  induction w generalizing a v with
  | zero => rw [load, pow_zero, Nat.mod_one]
  | succ w ih =>
    have hfirst := h 0 (Nat.succ_pos w)
    have hrest : load m (a + 1) w = v / 256 % 256 ^ w := ih fun j hj => by
      have hnext := h (j + 1) (by omega)
      rw [pow_succ', ← Nat.div_div_eq_div_mul] at hnext
      rw [← hnext]
      congr 1
      omega
    rw [Nat.add_zero, pow_zero, Nat.div_one] at hfirst
    rw [load, hrest, hfirst, pow_succ', Nat.mod_mul]
    rfl

theorem load_lt (m : Bytes) (a w : Nat) : load m a w < 256 ^ w := by
  induction w generalizing a with
  | zero => simp [load]
  | succ w ih =>
    have h1 := ih (a + 1)
    have h2 := (m a).toNat_lt
    rw [load, Nat.pow_succ]
    omega

end Bytes

end Xv6
