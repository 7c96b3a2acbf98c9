import Mathlib.Data.Nat.Digits.Lemmas

/-!
# Numerals

`numeral b n` is the shortest sequence of digits to the base `b`, the highest one first, that stands for `n`: zero has one digit, and
no other numeral begins with a zero (`isNumeral_iff`).  Division by the base gives its digits from the last one on (`numeral_div`).
-/

namespace Xv6

def numeral (b n : Nat) : List Nat := if n = 0 then [0] else (b.digits n).reverse

/-- `l` stands for `n`, and there is no shorter one. -/
structure IsNumeral (b n : Nat) (l : List Nat) : Prop where
  digit : ∀ d ∈ l, d < b
  value : Nat.ofDigits b l.reverse = n
  ne_nil : l ≠ []
  lead : l.head? = some 0 → l = [0]

/-- The characters of the digits. -/
def digitChar (d : Nat) : UInt8 := if d < 10 then .ofNat ('0'.toNat + d) else .ofNat ('A'.toNat + (d - 10))

def numeralText (b n : Nat) : List UInt8 := (numeral b n).map digitChar

variable {b n m k : Nat} {l : List Nat}

theorem numeral_of_lt (hn : n < b) : numeral b n = [n] := by
  unfold numeral
  by_cases h0 : n = 0
  · rw [if_pos h0, h0]
  · rw [if_neg h0, Nat.digits_of_lt b n h0 hn]
    rfl

theorem numeral_div (hb : 1 < b) (hn : b ≤ n) : numeral b n = numeral b (n / b) ++ [n % b] := by
  have h0 : n ≠ 0 := by omega
  have hdiv : n / b ≠ 0 := Nat.ne_of_gt (Nat.div_pos hn (by omega))
  unfold numeral
  rw [if_neg h0, if_neg hdiv, Nat.digits_eq_cons_digits_div hb h0, List.reverse_cons]

theorem isNumeral_iff (hb : 1 < b) : IsNumeral b n l ↔ l = numeral b n := by
  unfold numeral
  constructor
  · intro h
    by_cases hl : l = [0]
    · have hn : n = 0 := by
        rw [← h.value, hl]
        rfl
      rw [if_pos hn, hl]
    · have hhead : l.head? ≠ some 0 := fun hc => hl (h.lead hc)
      have hrev : l.reverse ≠ [] := fun hc => h.ne_nil (List.reverse_eq_nil_iff.1 hc)
      have hlast : l.reverse.getLast hrev ≠ 0 := by
        intro hc
        apply hhead
        rw [List.getLast_reverse] at hc
        rw [← hc]
        exact (List.head?_eq_some_head h.ne_nil)
      have hdigits := Nat.digits_ofDigits b hb l.reverse (fun d hd => h.digit d (List.mem_reverse.1 hd)) fun _ => hlast
      rw [h.value] at hdigits
      have hn : n ≠ 0 := by
        rintro rfl
        rw [Nat.digits_zero] at hdigits
        exact hrev hdigits.symm
      rw [if_neg hn, hdigits, List.reverse_reverse]
  · rintro rfl
    by_cases hn : n = 0
    · rw [if_pos hn, hn]
      exact ⟨by simp; omega, rfl, by simp, fun _ => rfl⟩
    · rw [if_neg hn]
      have hne : b.digits n ≠ [] := Nat.digits_ne_nil_iff_ne_zero.2 hn
      refine ⟨fun d hd => Nat.digits_lt_base hb (List.mem_reverse.1 hd), ?_, by simpa using hne, fun hc => ?_⟩
      · rw [List.reverse_reverse, Nat.ofDigits_digits]
      · rw [List.head?_reverse, List.getLast?_eq_some_getLast hne, Option.some.injEq] at hc
        exact absurd hc (Nat.getLast_digit_ne_zero b hn)

theorem isNumeral_numeral (hb : 1 < b) : IsNumeral b n (numeral b n) := (isNumeral_iff hb).2 rfl

theorem numeral_injective (hb : 1 < b) (h : numeral b n = numeral b m) : n = m := by
  rw [← (isNumeral_numeral (n := n) hb).value, h, (isNumeral_numeral hb).value]

theorem numeral_length_le (hb : 1 < b) (hk : 0 < k) (hn : n < b ^ k) : (numeral b n).length ≤ k := by
  unfold numeral
  by_cases h0 : n = 0
  · rw [if_pos h0]
    exact hk
  · rw [if_neg h0, List.length_reverse]
    exact (Nat.digits_length_le_iff hb n).2 hn

theorem numeral_length_mono (h : n ≤ m) : (numeral b n).length ≤ (numeral b m).length := by
  unfold numeral
  by_cases hn : n = 0
  · rw [if_pos hn]
    by_cases hm : m = 0
    · rw [if_pos hm]
    · rw [if_neg hm, List.length_reverse, List.length_singleton]
      exact List.length_pos_iff.2 (Nat.digits_ne_nil_iff_ne_zero.2 hm)
  · rw [if_neg hn, if_neg (by omega), List.length_reverse, List.length_reverse]
    exact Nat.le_length_digits_le b n m h

/-! ### Characters -/

/-- The digit that a character stands for. -/
def charDigit (c : UInt8) : Nat := if c.toNat < 'A'.toNat then c.toNat - '0'.toNat else c.toNat - 'A'.toNat + 10

theorem charDigit_digitChar : ∀ d < 16, charDigit (digitChar d) = d := by decide

theorem numeralText_digits (hb : 1 < b) (hb' : b ≤ 16) : (numeralText b n).map charDigit = numeral b n := by
  rw [numeralText, List.map_map]
  nth_rewrite 2 [← List.map_id (numeral b n)]
  apply List.map_congr_left
  intro d hd
  exact charDigit_digitChar d (Nat.lt_of_lt_of_le ((isNumeral_numeral hb).digit d hd) hb')

theorem numeralText_injective (hb : 1 < b) (hb' : b ≤ 16) (h : numeralText b n = numeralText b m) : n = m := by
  apply numeral_injective hb
  rw [← numeralText_digits hb hb', h, numeralText_digits hb hb']

end Xv6
