import Mathlib.Algebra.Order.Group.Nat
import Mathlib.Data.List.Nodup
import Mathlib.Logic.Function.Basic

/-!
# Rings with counters that wrap

A ring has `N` places.  A writer and a reader count the entries written and read modulo `W`, a multiple of `N`, and use a counter
modulo `N` as the place of the next entry.  `Ring.window` lists the entries written and not yet read, oldest first: a write at the
place of the writer's counter changes none of them as long as they are fewer than `N` (`Ring.window_write`), counting it appends it
(`Ring.window_push`), and counting a read removes the first (`Ring.window_pop`).
-/

namespace Xv6.Ring

open Function (update)

variable {α : Type} {N W lo hi : Nat}

/-- How many steps of `lo` lead to `hi`. -/
def count (W lo hi : Nat) : Nat := (hi + W - lo) % W

def window (N W : Nat) (ring : Nat → α) (lo hi : Nat) : List α := (List.range (count W lo hi)).map fun k => ring ((lo + k) % N)

theorem count_of_le (hhi : hi < W) (h : lo ≤ hi) : count W lo hi = hi - lo := by
  have he : hi + W - lo = hi - lo + W := by omega
  rw [count, he, Nat.add_mod_right, Nat.mod_eq_of_lt (by omega)]

theorem count_of_lt (hlo : lo < W) (h : hi < lo) : count W lo hi = hi + W - lo := Nat.mod_eq_of_lt (by omega)

@[simp] theorem count_self (h : lo < W) : count W lo lo = 0 := by rw [count_of_le h (Nat.le_refl _), Nat.sub_self]

theorem count_eq_zero (hlo : lo < W) (hhi : hi < W) : count W lo hi = 0 ↔ lo = hi := by
  rcases Nat.lt_or_ge hi lo with h | h
  · rw [count_of_lt hlo h]
    omega
  · rw [count_of_le hhi h]
    omega

/-- The successor of a counter. -/
theorem succ_mod (h : lo < W) : (lo + 1) % W = if lo + 1 = W then 0 else lo + 1 := by
  split
  · rename_i he
    rw [he, Nat.mod_self]
  · exact Nat.mod_eq_of_lt (by omega)

theorem count_succ_right (hlo : lo < W) (hhi : hi < W) (h : count W lo hi + 1 < W) : count W lo ((hi + 1) % W) = count W lo hi + 1 := by
  have hs : (hi + 1) % W < W := Nat.mod_lt _ (by omega)
  rcases Nat.lt_or_ge hi lo with hl | hl
  · rw [count_of_lt hlo hl] at h ⊢
    rw [succ_mod hhi, if_neg (by omega), count_of_lt hlo (by omega)]
    omega
  · rw [count_of_le hhi hl] at h ⊢
    rw [succ_mod hhi]
    split
    · rw [count_of_lt hlo (by omega)]
      omega
    · rw [count_of_le (by omega) (by omega)]
      omega

theorem count_succ_left (hlo : lo < W) (hhi : hi < W) (h : lo ≠ hi) : count W lo hi = count W ((lo + 1) % W) hi + 1 := by
  rcases Nat.lt_or_ge hi lo with hl | hl
  · rw [count_of_lt hlo hl, succ_mod hlo]
    split
    · rw [count_of_le hhi (by omega)]
      omega
    · rw [count_of_lt (by omega) (by omega)]
      omega
  · rw [count_of_le hhi hl, succ_mod hlo, if_neg (by omega), count_of_le hhi (by omega)]
    omega

/-- The place after the last entry. -/
theorem place_count (hN : N ∣ W) (hlo : lo < W) (hhi : hi < W) : (lo + count W lo hi) % N = hi % N := by
  rcases Nat.lt_or_ge hi lo with h | h
  · have he : lo + (hi + W - lo) = hi + W := by omega
    rw [count_of_lt hlo h, he, Nat.add_mod, Nat.mod_eq_zero_of_dvd hN, Nat.add_zero, Nat.mod_mod]
  · rw [count_of_le hhi h, Nat.add_sub_cancel' h]

/-- Entries at most `N` apart have different places. -/
theorem place_ne {j k : Nat} (hjk : j < k) (hk : k < j + N) : (lo + j) % N ≠ (lo + k) % N := by
  intro h
  have hd : (lo + k - (lo + j)) % N = 0 := Nat.sub_mod_eq_zero_of_mod_eq h.symm
  have he : lo + k - (lo + j) = k - j := by omega
  rw [he, Nat.mod_eq_of_lt (by omega)] at hd
  omega

@[simp] theorem length_window (ring : Nat → α) : (window N W ring lo hi).length = count W lo hi := by simp [window]

@[simp] theorem window_self (ring : Nat → α) (h : lo < W) : window N W ring lo lo = [] := by simp [window, h]

/-- A write at the place of the writer's counter. -/
theorem write_of_lt (hN : N ∣ W) (hlo : lo < W) (hhi : hi < W) (h : count W lo hi < N) (ring : Nat → α) (x : α) {k : Nat}
    (hk : k < count W lo hi) : update ring (hi % N) x ((lo + k) % N) = ring ((lo + k) % N) := by
  refine Function.update_of_ne ?_ _ _
  rw [← place_count hN hlo hhi]
  exact place_ne hk (by omega)

theorem window_write (hN : N ∣ W) (hlo : lo < W) (hhi : hi < W) (h : count W lo hi < N) (ring : Nat → α) (x : α) :
    window N W (update ring (hi % N) x) lo hi = window N W ring lo hi :=
  List.map_congr_left fun _ hk => write_of_lt hN hlo hhi h ring x (List.mem_range.1 hk)

theorem window_push (hN : N ∣ W) (hlo : lo < W) (hhi : hi < W) (h : count W lo hi + 1 < W) (ring : Nat → α) :
    window N W ring lo ((hi + 1) % W) = window N W ring lo hi ++ [ring (hi % N)] := by
  rw [window, count_succ_right hlo hhi h, List.range_succ, List.map_append, List.map_singleton, place_count hN hlo hhi, window]

theorem window_pop (hN : N ∣ W) (hlo : lo < W) (hhi : hi < W) (h : lo ≠ hi) (ring : Nat → α) :
    window N W ring lo hi = ring (lo % N) :: window N W ring ((lo + 1) % W) hi := by
  rw [window, count_succ_left hlo hhi h, List.range_succ_eq_map, List.map_cons, Nat.add_zero, List.map_map]
  congr 1
  refine List.map_congr_left fun k _ => ?_
  show ring ((lo + (k + 1)) % N) = ring (((lo + 1) % W + k) % N)
  congr 1
  rw [Nat.add_mod ((lo + 1) % W), Nat.mod_mod_of_dvd _ hN, ← Nat.add_mod, Nat.add_right_comm, Nat.add_assoc]

end Xv6.Ring
