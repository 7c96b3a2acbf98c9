import Xv6.GrepMatch
import Xv6.Lib.Lines
import Xv6.Memmove

/-!
# `grep`

The buffer holds the beginning of a line that has not arrived in full; what `read` returns goes behind it, the lines that are complete
are matched and printed, and the rest moves to the beginning of the buffer.  A line that fills the buffer leaves no room to be read
into: `read` is asked for no bytes, its answer is taken for the end of the input, and neither that line nor any behind it is printed
(`grep_prints_iff`).
-/

namespace Xv6

open Function (update)

open Memory

/-- `0` if the string has no `c`. -/
def Ulib.strchr (m : Memory) (c : UInt8) : Nat → UInt64 → Option UInt64
  | 0, _ => none
  | fuel + 1, s =>
    if m s ≠ 0 then
      if m s = c then some s else strchr m c fuel (s + 1)
    else some 0

namespace Grep

/-- `read`, for an input that is there already; `cut` is the number of bytes that it would return next, and there is at least one if it
is asked for one and has one. -/
def read (cut n : Nat) (input : List UInt8) : List UInt8 × List UInt8 := input.splitAt (min (max cut 1) n)

/-- The loop over the lines in the buffer, with `p`, the memory and the output. -/
def lineLoop (pattern : UInt64) (fuel : Nat) : Nat → UInt64 → Memory → List UInt8 → Option (UInt64 × Memory × List UInt8)
  | 0, _, _, _ => none
  | turns + 1, p, mem, out => do
    let q ← Ulib.strchr mem newline fuel p
    if q ≠ 0 then
      let mem := update mem q 0
      if ← «match» mem fuel pattern p then
        let mem := update mem q newline
        lineLoop pattern fuel turns (q + 1) mem (out ++ load mem p (q + 1 - p).toNat)
      else lineLoop pattern fuel turns (q + 1) mem out
    else return (p, mem, out)

/-- The loop over the calls of `read`, with `m`; what is written goes to `out`. -/
def readLoop (buf pattern : UInt64) (fuel : Nat) : Nat → (Nat → Nat) → Memory → Nat → List UInt8 → List UInt8 → Option (List UInt8)
  | 0, _, _, _, _, _ => none
  | turns + 1, cut, mem, m, input, out => do
    let (piece, input) := read (cut 0) (1024 - m - 1) input
    let n := piece.length
    if n > 0 then
      let mem := mem.store (buf + .ofNat m) piece
      let m := m + n
      let mem := update mem (buf + .ofNat m) 0
      let (p, mem, out) ← lineLoop pattern fuel fuel buf mem out
      if m > 0 then
        let m := m - (p - buf).toNat
        let (_, mem) := Ulib.memmove buf p (.ofNat m) mem
        readLoop buf pattern fuel turns (fun i => cut (i + 1)) mem m input out
      else readLoop buf pattern fuel turns (fun i => cut (i + 1)) mem m input out
    else return out

end Grep

/-- What is written, for the buffer at `buf`. -/
def grep (buf pattern : UInt64) (fuel : Nat) (cut : Nat → Nat) (mem : Memory) (input : List UInt8) : Option (List UInt8) :=
  Grep.readLoop buf pattern fuel fuel cut mem 0 input []

/-! ### The lines in the buffer -/

variable {m : Memory} {buf pattern s p : UInt64} {r t a b cur held input out : List UInt8} {c : UInt8}

theorem strchr_of_notMem (hs : CStr m s t) (hc : c ∉ t) {fuel : Nat} (hf : t.length < fuel) : Ulib.strchr m c fuel s = some 0 := by
  induction t generalizing s fuel with
  | nil =>
    obtain ⟨fuel, rfl⟩ : ∃ n, fuel = n + 1 := ⟨fuel - 1, by omega⟩
    have h0 : m s = 0 := hs
    rw [Ulib.strchr, if_neg (not_not.2 h0)]
  | cons x t ih =>
    obtain ⟨fuel, rfl⟩ : ∃ n, fuel = n + 1 := ⟨fuel - 1, by omega⟩
    obtain ⟨hx, hx0, hrest⟩ := hs
    have hxc : x ≠ c := fun h => hc (h ▸ List.mem_cons_self)
    rw [Ulib.strchr, hx, if_pos hx0, if_neg hxc]
    exact ih hrest (fun h => hc (List.mem_cons_of_mem _ h)) (by simp at hf; omega)

theorem strchr_of_append (hs : CStr m s (a ++ c :: b)) (hc : c ∉ a) {fuel : Nat} (hf : a.length < fuel) :
    Ulib.strchr m c fuel s = some (s + .ofNat a.length) := by
  induction a generalizing s fuel with
  | nil =>
    obtain ⟨fuel, rfl⟩ : ∃ n, fuel = n + 1 := ⟨fuel - 1, by omega⟩
    obtain ⟨hx, hx0, -⟩ := hs
    rw [Ulib.strchr, hx, if_pos hx0, if_pos rfl, List.length_nil, add_ofNat_zero]
  | cons x a ih =>
    obtain ⟨fuel, rfl⟩ : ∃ n, fuel = n + 1 := ⟨fuel - 1, by omega⟩
    obtain ⟨hx, hx0, hrest⟩ := hs
    have hxc : x ≠ c := fun h => hc (h ▸ List.mem_cons_self)
    rw [Ulib.strchr, hx, if_pos hx0, if_neg hxc, ih hrest (fun h => hc (List.mem_cons_of_mem _ h)) (by simp at hf; omega),
      add_ofNat_succ, List.length_cons]

namespace Grep

/-- The output for these lines. -/
def printed (r : List UInt8) (ls : List (List UInt8)) : List UInt8 := (ls.filter (parse r).accepts).flatMap (· ++ [newline])

/-- The pattern is a string outside of the buffer, and the buffer is somewhere in the memory. -/
structure Placed (buf pattern : UInt64) (r : List UInt8) : Prop where
  pos : 0 < buf.toNat
  fits : buf.toNat + 1024 ≤ 2 ^ 64
  apart : ∀ i ≤ r.length, ∀ j < 1024, pattern + .ofNat i ≠ buf + .ofNat j

theorem Placed.ne_zero (hp : Placed buf pattern r) {j : Nat} (hj : j < 1024) : buf + .ofNat j ≠ 0 := by
  intro h
  have hfits := hp.fits
  have hnat := congrArg UInt64.toNat h
  rw [toNat_add (by omega)] at hnat
  have := hp.pos
  simp at hnat
  omega

/-- Writing into the buffer leaves the pattern alone. -/
theorem Placed.keep {m' : Memory} (hp : Placed buf pattern r) (hr : CStr m pattern r)
    (hm : ∀ x, (∀ j < 1024, x ≠ buf + .ofNat j) → m' x = m x) : CStr m' pattern r :=
  hr.congr fun i hi => hm _ (hp.apart i hi)

theorem Placed.keep_update (hp : Placed buf pattern r) (hr : CStr m pattern r) {j : Nat} (hj : j < 1024) (c : UInt8) :
    CStr (update m (buf + .ofNat j) c) pattern r :=
  hp.keep hr fun _ hx => Function.update_of_ne (hx j hj) ..

theorem place_ne {i j : Nat} (hi : i < 1024) (hj : j < 1024) (hij : i ≠ j) :
    buf + .ofNat i ≠ buf + .ofNat j :=
  fun he => hij (ofNat_inj (by omega) (by omega) he)

/-- One line is matched and printed; the loop goes on behind it. -/
theorem lineLoop_line {j : Nat} (hp : Placed buf pattern r) (hr : CStr m pattern r) (hs : CStr m (buf + .ofNat j) (a ++ newline :: b))
    (ha : newline ∉ a) (hj : j + (a ++ newline :: b).length < 1024) {fuel turns : Nat}
    (hf : 2 * r.length + (a ++ newline :: b).length + 1 < fuel) (out : List UInt8) :
    ∃ m', lineLoop pattern fuel (turns + 1) (buf + .ofNat j) m out =
        lineLoop pattern fuel turns (buf + .ofNat (j + (a.length + 1))) m' (out ++ printed r [a]) ∧
      CStr m' pattern r ∧ CStr m' (buf + .ofNat (j + (a.length + 1))) b := by
  rw [List.length_append, List.length_cons] at hj hf
  have hq : buf + .ofNat j + .ofNat a.length = buf + .ofNat (j + a.length) := add_ofNat ..
  have hq1 : buf + .ofNat (j + a.length) + 1 = buf + .ofNat (j + (a.length + 1)) := add_ofNat buf (j + a.length) 1
  have hne : ∀ i < 1024, i ≠ j + a.length → buf + .ofNat i ≠ buf + .ofNat (j + a.length) := fun i hi => place_ne hi (by omega)
  obtain ⟨hholda, hholdb⟩ := holds_append.1 hs.holds
  have hzero := hs.ne_zero
  -- the line as a string, and what is behind it
  have hline : CStr (update m (buf + .ofNat (j + a.length)) 0) (buf + .ofNat j) a := by
    refine Holds.cStr (hholda.congr fun i hi => ?_) ?_ fun c hc => hzero c (List.mem_append_left _ hc)
    · rw [add_ofNat]
      exact Function.update_of_ne (hne _ (by omega) (by omega)) ..
    · rw [hq, Function.update_self]
  have hrest : ∀ c, CStr (update m (buf + .ofNat (j + a.length)) c) (buf + .ofNat (j + (a.length + 1))) b := by
    intro c
    have hb : CStr m (buf + .ofNat (j + (a.length + 1))) b := by
      refine Holds.cStr ?_ ?_ fun c hc => hzero c (by simp [hc])
      · obtain ⟨-, htail⟩ := (holds_append (l := [newline])).1 hholdb
        rwa [hq, List.length_singleton, add_ofNat] at htail
      · have hnull := hs.null
        rw [add_ofNat, List.length_append, List.length_cons] at hnull
        rwa [add_ofNat, Nat.add_assoc, Nat.add_right_comm a.length 1, Nat.add_assoc a.length]
    apply hb.congr
    intro i hi
    rw [add_ofNat]
    exact Function.update_of_ne (hne _ (by omega) (by omega)) ..
  have hstr := strchr_of_append hs ha (by omega : a.length < fuel)
  rw [hq] at hstr
  have hmatch := match_eq (hp.keep_update hr (by omega : j + a.length < 1024) 0) hline (by omega : _ < fuel)
  rw [lineLoop, hstr, Option.bind_eq_bind, Option.bind_some, if_pos (hp.ne_zero (by omega))]
  dsimp only
  rw [hmatch, Option.bind_eq_bind, Option.bind_some, hq1]
  cases hacc : (parse r).accepts a with
  | true =>
    rw [if_pos rfl]
    refine ⟨update m (buf + .ofNat (j + a.length)) newline, ?_, hp.keep_update hr (by omega) newline, hrest newline⟩
    have hlen : (buf + .ofNat (j + (a.length + 1)) - (buf + .ofNat j)).toNat = (a ++ [newline]).length := by
      rw [← add_ofNat, UInt64.add_comm, UInt64.add_sub_cancel, UInt64.toNat_ofNat_of_lt' (show a.length + 1 < 2 ^ 64 by omega),
        List.length_append, List.length_singleton]
    have hload : Holds (update m (buf + .ofNat (j + a.length)) newline) (buf + .ofNat j) (a ++ [newline]) := by
      refine holds_append.2 ⟨hholda.congr fun i hi => ?_, fun i hi => ?_⟩
      · rw [add_ofNat]
        exact Function.update_of_ne (hne _ (by omega) (by omega)) ..
      · obtain rfl : i = 0 := by simpa using hi
        rw [hq, add_ofNat_zero, Function.update_self]
        rfl
    rw [Function.update_idem, hlen, hload.load_eq]
    simp [printed, hacc]
  | false =>
    rw [if_neg (by simp)]
    refine ⟨update m (buf + .ofNat (j + a.length)) 0, ?_, hp.keep_update hr (by omega) 0, hrest 0⟩
    simp [printed, hacc]

theorem printed_cons (r a : List UInt8) (ls : List (List UInt8)) : printed r (a :: ls) = printed r [a] ++ printed r ls := by
  unfold printed
  rw [← List.flatMap_append, ← List.filter_append, List.singleton_append]

/-- All lines in the buffer are matched and printed. -/
theorem lineLoop_lines {j : Nat} (hp : Placed buf pattern r) (hr : CStr m pattern r) (hs : CStr m (buf + .ofNat j) cur)
    (hj : j + cur.length < 1024) {fuel turns : Nat} (hf : 2 * r.length + cur.length + 1 < fuel) (ht : cur.length < turns)
    (out : List UInt8) :
    ∃ m', lineLoop pattern fuel turns (buf + .ofNat j) m out =
        some (buf + .ofNat (j + cur.length - (lastLine newline cur).length), m', out ++ printed r (lines newline cur)) ∧
      CStr m' pattern r ∧ Holds m' (buf + .ofNat (j + cur.length - (lastLine newline cur).length)) (lastLine newline cur) := by
  induction cur using lines_induction newline generalizing m j turns out with
  | hlast cur hcur =>
    obtain ⟨turns, rfl⟩ : ∃ n, turns = n + 1 := ⟨turns - 1, by omega⟩
    rw [lastLine_of_notMem hcur, lines_of_notMem hcur, Nat.add_sub_cancel]
    refine ⟨m, ?_, hr, hs.holds⟩
    rw [lineLoop, strchr_of_notMem hs hcur (by omega)]
    simp [printed]
  | hline a b ha ih =>
    obtain ⟨turns, rfl⟩ : ∃ n, turns = n + 1 := ⟨turns - 1, by omega⟩
    obtain ⟨m₁, hrun, hr₁, hs₁⟩ := @lineLoop_line _ _ _ _ _ _ j hp hr hs ha hj fuel turns hf out
    rw [List.length_append, List.length_cons] at hj hf ht
    obtain ⟨m', hrun', hr', hs'⟩ := ih hr₁ hs₁ (by omega) (by omega) (by omega : b.length < turns) (out ++ printed r [a])
    have hlen : j + (a ++ newline :: b).length = j + (a.length + 1) + b.length := by
      rw [List.length_append, List.length_cons]
      omega
    refine ⟨m', ?_, hr', ?_⟩
    · rw [hrun, hrun', lastLine_append_cons ha, lines_append_cons ha, printed_cons r a (lines newline b), hlen, List.append_assoc]
    · rwa [lastLine_append_cons ha, hlen]

/-! ### The calls of `read` -/

/-- The lines before the first one that the buffer has no room for. -/
def fitting (ls : List (List UInt8)) : List (List UInt8) := ls.takeWhile (·.length < 1023)

theorem printed_append (r : List UInt8) (ls ls' : List (List UInt8)) : printed r (ls ++ ls') = printed r ls ++ printed r ls' := by
  rw [printed, List.filter_append, List.flatMap_append, printed, printed]

/-- A full buffer without a newline is the beginning of a line that does not fit. -/
theorem fitting_of_full (hh : newline ∉ held) (hlen : held.length = 1023) : fitting (lines newline (held ++ input)) = [] := by
  by_cases hi : newline ∈ input
  · obtain ⟨a, b, rfl, ha⟩ := List.eq_append_cons_of_mem hi
    rw [← List.append_assoc, lines_append_cons (by simp [hh, ha]), fitting, List.takeWhile_cons_of_neg]
    rw [List.length_append]
    simp only [decide_eq_true_iff]
    omega
  · rw [lines_of_notMem (by simp [hh, hi])]
    rfl

theorem fitting_append (hlen : cur.length ≤ 1023) :
    fitting (lines newline (cur ++ input)) = lines newline cur ++ fitting (lines newline (lastLine newline cur ++ input)) := by
  rw [lines_append, fitting, List.takeWhile_append_of_pos, fitting]
  intro l hl
  have := length_lt_of_mem_lines hl
  rw [decide_eq_true_iff]
  omega

/-- What has been read goes behind the bytes that are held, and a null behind it. -/
theorem append_piece {piece : List UInt8} (hp : Placed buf pattern r) (hr : CStr m pattern r) (hh : Holds m buf held)
    (h0 : ∀ c ∈ held ++ piece, c ≠ 0) (hlen : held.length + piece.length ≤ 1023) :
    CStr (update (m.store (buf + .ofNat held.length) piece) (buf + .ofNat (held.length + piece.length)) 0) buf (held ++ piece) ∧
      CStr (update (m.store (buf + .ofNat held.length) piece) (buf + .ofNat (held.length + piece.length)) 0) pattern r := by
  have hstored : Holds (m.store (buf + .ofNat held.length) piece) buf (held ++ piece) := by
    refine holds_append.2 ⟨hh.congr fun i hi => store_of_ne fun j hj => ?_, holds_store (by omega)⟩
    rw [add_ofNat]
    exact place_ne (by omega) (by omega) (by omega)
  have hr₁ : CStr (m.store (buf + .ofNat held.length) piece) pattern r :=
    hp.keep hr fun x hx => store_of_ne fun j hj => by
      rw [add_ofNat]
      exact hx _ (by omega)
  have hcurlen : held.length + piece.length = (held ++ piece).length := List.length_append.symm
  constructor
  · rw [hcurlen]
    refine Holds.cStr (hstored.congr fun i hi => ?_) (Function.update_self ..) h0
    exact Function.update_of_ne (place_ne (by omega) (by omega) (by omega)) ..
  · exact hp.keep_update hr₁ (by omega) 0

/-- The lines in the buffer are printed, and the rest moves to its beginning. -/
theorem print_and_move (hp : Placed buf pattern r) (hr : CStr m pattern r) (hs : CStr m buf cur) (hlen : cur.length ≤ 1023) {fuel : Nat}
    (hf : 2 * r.length + 1024 < fuel) (out : List UInt8) :
    ∃ p m', lineLoop pattern fuel fuel buf m out = some (p, m', out ++ printed r (lines newline cur)) ∧
      cur.length - (p - buf).toNat = (lastLine newline cur).length ∧
      CStr (Ulib.memmove buf p (.ofNat (lastLine newline cur).length) m').2 pattern r ∧
      Holds (Ulib.memmove buf p (.ofNat (lastLine newline cur).length) m').2 buf (lastLine newline cur) := by
  have hfits := hp.fits
  have hle : (lastLine newline cur).length ≤ cur.length := by
    conv_rhs => rw [← lines_flatMap newline cur]
    rw [List.length_append]
    omega
  obtain ⟨m', hrun, hr', hlast⟩ := @lineLoop_lines m buf pattern r cur 0 hp hr (by rwa [add_ofNat_zero]) (by omega) fuel fuel
    (by omega) (by omega) out
  rw [add_ofNat_zero, Nat.zero_add] at hrun
  rw [Nat.zero_add] at hlast
  have hint : (Int32.ofNat (lastLine newline cur).length).toInt = (lastLine newline cur).length :=
    Int32.toInt_ofNat_of_lt (show (lastLine newline cur).length < 2 ^ 31 by omega)
  have hsrc : (buf + UInt64.ofNat (cur.length - (lastLine newline cur).length)).toNat =
      buf.toNat + (cur.length - (lastLine newline cur).length) := toNat_add (by omega)
  have hrel := @Ulib.memmove_relocated buf (buf + .ofNat (cur.length - (lastLine newline cur).length))
    (.ofNat (lastLine newline cur).length) (by omega) (by omega) (by omega) m'
  rw [hint, Int.toNat_natCast] at hrel
  refine ⟨_, m', hrun, ?_, hp.keep hr' fun x hx => hrel.frame x fun i hi => hx i (by omega), hlast.relocated hrel⟩
  rw [UInt64.add_comm, UInt64.add_sub_cancel,
    UInt64.toNat_ofNat_of_lt' (show cur.length - (lastLine newline cur).length < 2 ^ 64 by omega)]
  omega

/-- The loop with the bytes `held` in the buffer. -/
theorem readLoop_eq (hp : Placed buf pattern r) (hr : CStr m pattern r) (hh : Holds m buf held) (hnl : newline ∉ held)
    (h0 : ∀ c ∈ held ++ input, c ≠ 0) (hlen : held.length ≤ 1023) {fuel turns : Nat} (hf : 2 * r.length + 1024 < fuel)
    (ht : input.length < turns) (cut : Nat → Nat) (out : List UInt8) :
    readLoop buf pattern fuel turns cut m held.length input out =
      some (out ++ printed r (fitting (lines newline (held ++ input)))) := by
  induction turns generalizing m held input cut out with
  | zero => omega
  | succ turns ih =>
    rw [readLoop, read, List.splitAt_eq]
    dsimp only
    generalize hn : min (max (cut 0) 1) (1024 - held.length - 1) = n
    by_cases hmore : (input.take n).length > 0
    · rw [if_pos hmore]
      obtain ⟨hpn, hdrop⟩ : held.length + (input.take n).length ≤ 1023 ∧ (input.drop n).length < input.length := by
        rw [List.length_take] at hmore ⊢
        rw [List.length_drop]
        omega
      have hcut : held ++ input = held ++ input.take n ++ input.drop n := by
        rw [List.append_assoc, List.take_append_drop]
      rw [hcut] at h0 ⊢
      generalize input.take n = piece at *
      generalize input.drop n = rest at *
      obtain ⟨hs₁, hr₁⟩ := append_piece hp hr hh (fun c hc => h0 c (List.mem_append_left _ hc)) hpn
      have hpos : held.length + piece.length > 0 := by omega
      rw [← List.length_append] at hpn hpos hs₁ hr₁ ⊢
      obtain ⟨p, m₂, hrun, hleft, hr₂, hh₂⟩ := print_and_move hp hr₁ hs₁ hpn hf out
      rw [hrun, Option.bind_eq_bind, Option.bind_some]
      dsimp only
      rw [if_pos hpos, hleft, ih hr₂ hh₂ (notMem_lastLine _) ?_ ?_ (by omega), List.append_assoc, ← printed_append, fitting_append hpn]
      · intro c hc
        apply h0
        rw [← lines_flatMap newline (held ++ piece), List.append_assoc]
        exact List.mem_append_right _ hc
      · omega
    · -- there is no more input, or no room for it
      rw [if_neg hmore]
      have hnone : fitting (lines newline (held ++ input)) = [] := by
        by_cases hin : input = []
        · rw [hin, List.append_nil, lines_of_notMem hnl]
          rfl
        · apply fitting_of_full hnl
          have := List.length_pos_iff.2 hin
          rw [List.length_take] at hmore
          omega
      rw [hnone]
      simp [printed]

theorem printed_eq_nil {ls : List (List UInt8)} : printed r ls = [] ↔ ∀ l ∈ ls, (parse r).accepts l = false := by
  simp [printed, List.flatMap_eq_nil_iff]

end Grep

open Grep

/-- `grep` writes the lines that the pattern accepts, with their newlines, if and only if there is none among them from the first line
on that has 1023 bytes or more, however `read` cuts the input into pieces. -/
theorem grep_prints_iff (hp : Placed buf pattern r) (hr : CStr m pattern r) (h0 : ∀ c ∈ input, c ≠ 0) (cut : Nat → Nat) :
    ∃ out, (∃ n, ∀ fuel ≥ n, grep buf pattern fuel cut m input = some out) ∧
      (out = ((lines newline input).filter (parse r).accepts).flatMap (· ++ [newline]) ↔
        ∀ l ∈ (lines newline input).dropWhile (·.length < 1023), (parse r).accepts l = false) := by
  refine ⟨printed r (fitting (lines newline input)), ⟨2 * r.length + 1025 + input.length, fun fuel hfuel => ?_⟩, ?_⟩
  · exact @readLoop_eq _ _ _ _ [] _ hp hr holds_nil (by simp) (by simpa using h0) (by simp) _ _ (by omega) (by omega) cut []
  · rw [← printed_eq_nil]
    change _ = printed r (lines newline input) ↔ _
    nth_rewrite 2 [← List.takeWhile_append_dropWhile (p := (·.length < 1023)) (l := lines newline input)]
    rw [printed_append, ← fitting]
    exact List.self_eq_append_right

namespace Grep

/-- The pattern `a`, at 100. -/
def letterA : Memory := fun x => if x = 100 then 97 else 0

theorem letterA_string : CStr letterA 100 [97] := ⟨rfl, by decide, rfl⟩

theorem letterA_placed : Placed 4096 100 [97] where
  pos := by decide
  fits := by decide
  apart i hi j hj h := by
    have hnat := congrArg UInt64.toNat h
    have hi' : i ≤ 1 := hi
    have h100 : (100 : UInt64).toNat = 100 := rfl
    have h4096 : (4096 : UInt64).toNat = 4096 := rfl
    rw [toNat_add (by omega), toNat_add (by omega)] at hnat
    omega

end Grep

/-- A line that arrives byte by byte. -/
theorem grep_prints_iff_letterA : ∃ out, (∃ n, ∀ fuel ≥ n, grep 4096 100 fuel (fun _ => 1) letterA [97, 10] = some out) ∧
    (out = ((lines newline [97, 10]).filter (parse [97]).accepts).flatMap (· ++ [newline]) ↔
      ∀ l ∈ (lines newline [97, 10]).dropWhile (·.length < 1023), (parse [97]).accepts l = false) :=
  grep_prints_iff letterA_placed letterA_string (by simp) fun _ => 1

/-- A line of many letters. -/
theorem grep_long_line {n : Nat} (hn : 1022 ≤ n) :
    (∃ k, ∀ fuel ≥ k, grep 4096 100 fuel (fun _ => 1023) letterA (List.replicate (n + 1) 97 ++ [newline]) = some []) ∧
      ((lines newline (List.replicate (n + 1) 97 ++ [newline])).filter (parse [97]).accepts).flatMap (· ++ [newline]) =
        List.replicate (n + 1) 97 ++ [newline] := by
  have hnl : newline ∉ List.replicate (n + 1) 97 := fun h => absurd (List.eq_of_mem_replicate h) (by decide)
  have hlines : lines newline (List.replicate (n + 1) 97 ++ [newline]) = [List.replicate (n + 1) 97] := by
    rw [lines_append_cons hnl, lines_of_notMem List.not_mem_nil]
  have haccepts : (parse [97]).accepts (List.replicate (n + 1) 97) = true := by
    rw [Pattern.accepts_iff]
    exact ⟨[], [97], List.replicate n 97, rfl, ⟨[97], ⟨97, by decide, rfl⟩, [], rfl, rfl⟩, fun _ => rfl, nofun⟩
  have h0 : ∀ c ∈ List.replicate (n + 1) 97 ++ [newline], c ≠ 0 := by
    intro c hc
    rcases List.mem_append.1 hc with hc | hc
    · rw [List.eq_of_mem_replicate hc]
      decide
    · rw [List.mem_singleton.1 hc]
      decide
  constructor
  · refine ⟨n + 2000, fun fuel hfuel => ?_⟩
    have hrun := @readLoop_eq _ _ _ [97] [] (List.replicate (n + 1) 97 ++ [newline]) letterA_placed letterA_string holds_nil (by simp)
      (by rwa [List.nil_append]) (by simp) fuel fuel (by simp; omega) (by simp; omega) (fun _ => 1023) []
    rw [List.nil_append, List.nil_append, hlines, fitting, List.takeWhile_cons_of_neg (by simp; omega)] at hrun
    exact hrun
  · rw [hlines, List.filter_cons_of_pos haccepts]
    simp

/-- Of a line with 1023 bytes nothing is printed. -/
theorem grep_drops_line :
    (∃ k, ∀ fuel ≥ k, grep 4096 100 fuel (fun _ => 1023) letterA (List.replicate 1023 97 ++ [newline]) = some []) ∧
      ((lines newline (List.replicate 1023 97 ++ [newline])).filter (parse [97]).accepts).flatMap (· ++ [newline]) ≠ [] := by
  obtain ⟨hrun, hwant⟩ := grep_long_line (Nat.le_refl 1022)
  refine ⟨hrun, ?_⟩
  rw [hwant]
  exact List.append_ne_nil_of_right_ne_nil _ (List.cons_ne_nil _ _)

end Xv6
