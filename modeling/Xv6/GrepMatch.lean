import Xv6.Lib.Memory
import Xv6.Lib.Pattern

/-!
# The matcher of `grep`

`match`, `matchhere` and `matchstar` of `grep.c`, over the memory that the pattern and the text are in.  What a character of a pattern
means depends on its place (`Grep.parse`); the matcher decides whether the pattern accepts the text (`grep_match_decides`).
-/

namespace Xv6

open Memory

namespace Grep

mutual

/-- `none` stands for calls that go deeper than `fuel`. -/
def matchhere (m : Memory) : Nat → UInt64 → UInt64 → Option Bool
  | 0, _, _ => none
  | fuel + 1, re, text =>
    if m re = 0 then some true
    else if m (re + 1) = '*'.toUInt8 then matchstar m (m re) fuel (re + 2) text
    else if m re = '$'.toUInt8 ∧ m (re + 1) = 0 then some (m text = 0)
    else if m text ≠ 0 ∧ (m re = '.'.toUInt8 ∨ m re = m text) then matchhere m fuel (re + 1) (text + 1)
    else some false

def matchstar (m : Memory) (c : UInt8) : Nat → UInt64 → UInt64 → Option Bool
  | 0, _, _ => none
  | fuel + 1, re, text => do
    if ← matchhere m fuel re text then return true
    else if m text ≠ 0 ∧ (m text = c ∨ c = '.'.toUInt8) then matchstar m c fuel re (text + 1)
    else return false

end

/-- The loop of `match`. -/
def matchLoop (m : Memory) (re : UInt64) : Nat → UInt64 → Option Bool
  | 0, _ => none
  | fuel + 1, text => do
    if ← matchhere m fuel re text then return true
    else if m text ≠ 0 then matchLoop m re fuel (text + 1)
    else return false

def «match» (m : Memory) (fuel : Nat) (re text : UInt64) : Option Bool :=
  if m re = '^'.toUInt8 then matchhere m fuel (re + 1) text
  else matchLoop m re fuel text

/-! ### What a pattern means -/

/-- The characters that `c` stands for. -/
def covers (c x : UInt8) : Bool := x = c || c = '.'.toUInt8

def parseAtoms : List UInt8 → Pattern UInt8
  | [] => ⟨false, [], false⟩
  | [c] => if c = '$'.toUInt8 then ⟨false, [], true⟩ else ⟨false, [.one (covers c)], false⟩
  | c :: d :: re =>
    if d = '*'.toUInt8 then ⟨false, .many (covers c) :: (parseAtoms re).atoms, (parseAtoms re).dollar⟩
    else ⟨false, .one (covers c) :: (parseAtoms (d :: re)).atoms, (parseAtoms (d :: re)).dollar⟩

def parse : List UInt8 → Pattern UInt8
  | [] => ⟨false, [], false⟩
  | c :: re => if c = '^'.toUInt8 then { parseAtoms re with caret := true } else parseAtoms (c :: re)

theorem parseAtoms_caret (r : List UInt8) : (parseAtoms r).caret = false := by
  fun_cases parseAtoms <;> simp [*]

variable {m : Memory} {re text : UInt64} {r t : List UInt8} {c : UInt8}

theorem covers_iff {x : UInt8} : covers c x = true ↔ x = c ∨ c = '.'.toUInt8 := by
  simp [covers]

/-- `matchstar` skips characters until the rest of the pattern matches. -/
theorem matchstar_eq {k : List UInt8 → Bool} {n : Nat}
    (hk : ∀ {text t fuel}, CStr m text t → n + t.length < fuel → matchhere m fuel re text = some (k t)) (ht : CStr m text t)
    {fuel : Nat} (hf : n + t.length + 1 < fuel) : matchstar m c fuel re text = some (Pattern.acceptsStar (covers c) k t) := by
  induction t generalizing text fuel with
  | nil =>
    obtain ⟨fuel, rfl⟩ : ∃ n, fuel = n + 1 := ⟨fuel - 1, by omega⟩
    have h0 : m text = 0 := ht
    rw [matchstar, hk ht (by omega), Pattern.acceptsStar]
    cases k [] <;> simp [h0]
  | cons x t ih =>
    obtain ⟨fuel, rfl⟩ : ∃ n, fuel = n + 1 := ⟨fuel - 1, by omega⟩
    have hnow := @hk text (x :: t) fuel ht (by simp at hf ⊢; omega)
    obtain ⟨hx, hx0, hrest⟩ := ht
    simp only [List.length_cons] at hf
    rw [matchstar, hnow, Pattern.acceptsStar, hx]
    cases k (x :: t) with
    | true => rfl
    | false =>
      rw [Option.bind_eq_bind, Option.bind_some, if_neg (by simp), Bool.false_or]
      by_cases hc : covers c x = true
      · rw [if_pos ⟨hx0, covers_iff.1 hc⟩, hc, Bool.true_and]
        exact ih hrest (by omega)
      · rw [if_neg fun h => hc (covers_iff.2 h.2), Bool.eq_false_iff.2 hc]
        rfl

/-- One character of the pattern that is not followed by `*`. -/
theorem matchhere_one {dollar : Bool} {atoms : List (Atom UInt8)} {n : Nat}
    (hk : ∀ {text t fuel}, CStr m text t → n + t.length < fuel →
      matchhere m fuel (re + 1) text = some (Pattern.acceptsHere dollar atoms t))
    (hc : m re = c) (hc0 : c ≠ 0) (hstar : m (re + 1) ≠ '*'.toUInt8) (hend : ¬(c = '$'.toUInt8 ∧ m (re + 1) = 0)) (ht : CStr m text t)
    {fuel : Nat} (hf : n + t.length < fuel) :
    matchhere m fuel re text = some (Pattern.acceptsHere dollar (.one (covers c) :: atoms) t) := by
  obtain ⟨fuel, rfl⟩ : ∃ n, fuel = n + 1 := ⟨fuel - 1, by omega⟩
  rw [matchhere, hc, if_neg hc0, if_neg hstar, if_neg hend]
  cases t with
  | nil =>
    have h0 : m text = 0 := ht
    rw [if_neg fun h => h.1 h0]
    rfl
  | cons x t =>
    obtain ⟨hx, hx0, hrest⟩ := ht
    rw [hx, Pattern.acceptsHere]
    by_cases hcx : covers c x = true
    · have hor : c = '.'.toUInt8 ∨ c = x := (covers_iff.1 hcx).symm.imp_right Eq.symm
      rw [if_pos ⟨hx0, hor⟩, hcx, Bool.true_and]
      exact hk hrest (by simp at hf; omega)
    · have hor : ¬(c = '.'.toUInt8 ∨ c = x) := fun h => hcx (covers_iff.2 (h.symm.imp_left Eq.symm))
      rw [if_neg fun h => hor h.2, Bool.eq_false_iff.2 hcx]
      rfl

theorem matchhere_eq (hr : CStr m re r) (ht : CStr m text t) {fuel : Nat} (hf : 2 * r.length + t.length < fuel) :
    matchhere m fuel re text = some (Pattern.acceptsHere (parseAtoms r).dollar (parseAtoms r).atoms t) := by
  induction r using parseAtoms.induct generalizing re text t fuel with
  | case1 =>
    obtain ⟨fuel, rfl⟩ : ∃ n, fuel = n + 1 := ⟨fuel - 1, by omega⟩
    have h0 : m re = 0 := hr
    rw [matchhere, if_pos h0]
    rfl
  | case2 =>
    -- `$` at the end
    obtain ⟨fuel, rfl⟩ : ∃ n, fuel = n + 1 := ⟨fuel - 1, by omega⟩
    obtain ⟨hc, hc0, hnull⟩ := hr
    have hnull : m (re + 1) = 0 := hnull
    rw [matchhere, hc, hnull, if_neg hc0, if_neg (by decide), if_pos ⟨rfl, rfl⟩, parseAtoms, if_pos rfl]
    cases t with
    | nil =>
      have h0 : m text = 0 := ht
      simp [h0, Pattern.acceptsHere]
    | cons x t => simp [ht.1, ht.2.1, Pattern.acceptsHere]
  | case3 c hc =>
    obtain ⟨hre, hc0, hnull⟩ := hr
    have hnull : m (re + 1) = 0 := hnull
    rw [parseAtoms, if_neg hc]
    refine matchhere_one (n := 1) (fun {text t fuel} _ hf => ?_) hre hc0 (by rw [hnull]; decide) (fun h => hc h.1) ht (by simp at hf; omega)
    obtain ⟨fuel, rfl⟩ : ∃ n, fuel = n + 1 := ⟨fuel - 1, by omega⟩
    rw [matchhere, if_pos hnull]
    rfl
  | case4 c r ih =>
    obtain ⟨fuel, rfl⟩ : ∃ n, fuel = n + 1 := ⟨fuel - 1, by omega⟩
    obtain ⟨hre, hc0, hstar, -, hrest⟩ := hr
    have htwo : re + 1 + 1 = re + 2 := by rw [UInt64.add_assoc]; rfl
    rw [htwo] at hrest
    simp only [List.length_cons] at hf
    rw [matchhere, hre, if_neg hc0, if_pos hstar, parseAtoms, if_pos rfl]
    exact matchstar_eq (n := 2 * r.length) (fun ht hf => ih hrest ht hf) ht (by omega)
  | case5 c d r hd ih =>
    obtain ⟨hre, hc0, hrest⟩ := hr
    have hnext : m (re + 1) = d := hrest.1
    have hd0 : d ≠ 0 := hrest.2.1
    rw [parseAtoms, if_neg hd]
    simp only [List.length_cons] at hf ih
    exact matchhere_one (n := 2 * (r.length + 1)) (fun ht hf => ih hrest ht hf) hre hc0 (by rwa [hnext]) (by simp [hnext, hd0]) ht
      (by omega)

theorem matchLoop_eq (hr : CStr m re r) (ht : CStr m text t) {fuel : Nat} (hf : 2 * r.length + t.length + 1 < fuel) :
    matchLoop m re fuel text =
      some (Pattern.acceptsStar (fun _ => true) (Pattern.acceptsHere (parseAtoms r).dollar (parseAtoms r).atoms) t) := by
  induction t generalizing text fuel with
  | nil =>
    obtain ⟨fuel, rfl⟩ : ∃ n, fuel = n + 1 := ⟨fuel - 1, by omega⟩
    have h0 : m text = 0 := ht
    rw [matchLoop, matchhere_eq hr ht (by omega), Pattern.acceptsStar]
    cases Pattern.acceptsHere (parseAtoms r).dollar (parseAtoms r).atoms [] <;> simp [h0]
  | cons x t ih =>
    obtain ⟨fuel, rfl⟩ : ∃ n, fuel = n + 1 := ⟨fuel - 1, by omega⟩
    simp only [List.length_cons] at hf
    rw [matchLoop, matchhere_eq hr ht (by simp; omega), Pattern.acceptsStar]
    cases Pattern.acceptsHere (parseAtoms r).dollar (parseAtoms r).atoms (x :: t) with
    | true => rfl
    | false =>
      rw [Option.bind_eq_bind, Option.bind_some, if_neg (by simp), Bool.false_or, Bool.true_and, if_pos (ht.1 ▸ ht.2.1)]
      exact ih ht.2.2 (by omega)

/-- The matcher computes what backtracking over the atoms does. -/
theorem match_eq (hr : CStr m re r) (ht : CStr m text t) {fuel : Nat} (hf : 2 * r.length + t.length + 1 < fuel) :
    «match» m fuel re text = some ((parse r).accepts t) := by
  unfold «match»
  cases r with
  | nil =>
    have h0 : m re = 0 := hr
    rw [if_neg (by rw [h0]; decide)]
    exact matchLoop_eq (r := []) hr ht hf
  | cons c r =>
    rw [hr.1, parse]
    by_cases hc : c = '^'.toUInt8
    · rw [if_pos hc, if_pos hc]
      exact matchhere_eq hr.2.2 ht (by simp at hf; omega)
    · rw [if_neg hc, if_neg hc, Pattern.accepts, parseAtoms_caret]
      exact matchLoop_eq hr ht hf

end Grep

/-- `match` returns, and accepts the texts that the pattern accepts. -/
theorem grep_match_decides {m : Memory} {re text : UInt64} {r t : List UInt8} (hr : Memory.CStr m re r) (ht : Memory.CStr m text t) :
    ∃ b, (∃ n, ∀ fuel ≥ n, Grep.match m fuel re text = some b) ∧ (b = true ↔ (Grep.parse r).Accepts t) :=
  ⟨_, ⟨2 * r.length + t.length + 2, fun _ hfuel => Grep.match_eq hr ht (Nat.lt_of_succ_le hfuel)⟩, Pattern.accepts_iff _⟩

/-- The pattern `a$` and the text `ba`. -/
theorem grep_match_decides_suffix : ∃ b, (∃ n, ∀ fuel ≥ n,
    Grep.match (fun a => if a = 100 then 97 else if a = 101 then 36 else if a = 200 then 98 else if a = 201 then 97 else 0) fuel 100 200 =
      some b) ∧ (b = true ↔ (Grep.parse [97, 36]).Accepts [98, 97]) := by
  apply grep_match_decides
  · exact ⟨rfl, by decide, rfl, by decide, rfl⟩
  · exact ⟨rfl, by decide, rfl, by decide, rfl⟩

end Xv6
