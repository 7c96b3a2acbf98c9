import Xv6.Lib.Numeral

/-!
# `vprintf` of the user library

What `vprintf` writes, for a format and its arguments.  `printint` takes an `int`, which is what `%l` hands its argument over as: of
an argument of 64 bits the lower half is left.  At all other conversions the numbers are printed as they are, and the buffer for the
digits is large enough (`vprintf_prints_iff`).
-/

namespace Xv6

namespace Printf

def digits : List UInt8 := ['0', '1', '2', '3', '4', '5', '6', '7', '8', '9', 'A', 'B', 'C', 'D', 'E', 'F'].map Char.toUInt8

/-- The loop of `printint` that fills `buf`, with `room` for more characters; `none` if it would write behind it. -/
def digitLoop (base : UInt32) : Nat → UInt32 → List UInt8 → Option (List UInt8)
  | 0, _, _ => none
  | room + 1, x, buf =>
    let buf := buf ++ [digits.getD (x % base).toNat 0]
    let x := x / base
    if x ≠ 0 then digitLoop base room x buf else some buf

def printint (xx base : Int32) (sgn : Bool) : Option (List UInt8) := do
  let neg := sgn && xx < 0
  let x := if neg then (-xx).toUInt32 else xx.toUInt32
  let buf ← digitLoop base.toUInt32 16 x []
  if neg then
    if buf.length < 16 then return (buf ++ ['-'.toUInt8]).reverse else none
  else return buf.reverse

def ptrLoop : Nat → UInt64 → List UInt8
  | 0, _ => []
  | n + 1, x => digits.getD (x >>> 60).toNat 0 :: ptrLoop n (x <<< 4)

def printptr (x : UInt64) : List UInt8 := '0'.toUInt8 :: 'x'.toUInt8 :: ptrLoop 16 x

/-- An argument: a number of 32 bits, one of 64, or a string, which may be null. -/
inductive Arg
  | word (v : UInt32)
  | dword (v : UInt64)
  | str (s : Option (List UInt8))

/-- `va_arg(ap, int)` and `va_arg(ap, uint)`; `none` if the next argument has another type. -/
def vaWord : List Arg → Option (UInt32 × List Arg)
  | .word v :: args => some (v, args)
  | _ => none

def vaDword : List Arg → Option (UInt64 × List Arg)
  | .dword v :: args => some (v, args)
  | _ => none

def vaStr : List Arg → Option (Option (List UInt8) × List Arg)
  | .str s :: args => some (s, args)
  | _ => none

def null : List UInt8 := ['(', 'n', 'u', 'l', 'l', ')'].map Char.toUInt8

/-- What is written at `%` and `c`, and the arguments that are left. -/
def convert (c : UInt8) (args : List Arg) : Option (List UInt8 × List Arg) :=
  if c = 'd'.toUInt8 then do
    let (v, args) ← vaWord args
    return (← printint v.toInt32 10 true, args)
  else if c = 'l'.toUInt8 then do
    let (v, args) ← vaDword args
    return (← printint v.toUInt32.toInt32 10 false, args)
  else if c = 'x'.toUInt8 then do
    let (v, args) ← vaWord args
    return (← printint v.toInt32 16 false, args)
  else if c = 'p'.toUInt8 then do
    let (v, args) ← vaDword args
    return (printptr v, args)
  else if c = 's'.toUInt8 then do
    let (s, args) ← vaStr args
    return (s.getD null, args)
  else if c = 'c'.toUInt8 then do
    let (v, args) ← vaWord args
    return ([v.toUInt8], args)
  else if c = '%'.toUInt8 then some ([c], args)
  else some (['%'.toUInt8, c], args)

/-- The loop over the format, with `state`. -/
def formatLoop : List UInt8 → UInt8 → List Arg → Option (List UInt8)
  | [], _, _ => some []
  | c :: fmt, state, args =>
    if state = 0 then
      if c = '%'.toUInt8 then formatLoop fmt '%'.toUInt8 args
      else do return c :: (← formatLoop fmt 0 args)
    else if state = '%'.toUInt8 then do
      let (out, args) ← convert c args
      return out ++ (← formatLoop fmt 0 args)
    else formatLoop fmt state args

def vprintf (fmt : List UInt8) (args : List Arg) : Option (List UInt8) := formatLoop fmt 0 args

/-! ### What is to be printed -/

inductive Conv
  | d | l | x | p | s | c

inductive Piece
  | text (t : List UInt8)
  | conv (k : Conv)

def piece (c : UInt8) : Piece :=
  if c = 'd'.toUInt8 then .conv .d
  else if c = 'l'.toUInt8 then .conv .l
  else if c = 'x'.toUInt8 then .conv .x
  else if c = 'p'.toUInt8 then .conv .p
  else if c = 's'.toUInt8 then .conv .s
  else if c = 'c'.toUInt8 then .conv .c
  else if c = '%'.toUInt8 then .text [c]
  else .text ['%'.toUInt8, c]

/-- The pieces of a format; nothing is printed for a `%` at its end. -/
def pieces : List UInt8 → List Piece
  | [] => []
  | [c] => if c = '%'.toUInt8 then [] else [.text [c]]
  | c :: d :: fmt => if c = '%'.toUInt8 then piece d :: pieces fmt else .text [c] :: pieces (d :: fmt)

def signedText (z : Int) : List UInt8 := if z < 0 then '-'.toUInt8 :: numeralText 10 z.natAbs else numeralText 10 z.natAbs

/-- `n` with 16 digits. -/
def wideText (n : Nat) : List UInt8 := (Nat.digitsAppend 16 16 n).reverse.map digitChar

/-- The text for an argument, if it has the type of the conversion. -/
def Conv.shows : Conv → Arg → Option (List UInt8)
  | .d, .word v => some (signedText v.toInt32.toInt)
  | .l, .dword v => some (numeralText 10 v.toNat)
  | .x, .word v => some (numeralText 16 v.toNat)
  | .p, .dword v => some ('0'.toUInt8 :: 'x'.toUInt8 :: wideText v.toNat)
  | .s, .str t => some (t.getD null)
  | .c, .word v => some [v.toUInt8]
  | _, _ => none

/-- The whole text, if the arguments match the format. -/
def expected : List Piece → List Arg → Option (List UInt8)
  | [], _ => some []
  | .text t :: ps, args => do return t ++ (← expected ps args)
  | .conv _ :: _, [] => none
  | .conv k :: ps, a :: args => do return (← k.shows a) ++ (← expected ps args)

/-- The arguments that `%l` is for. -/
def longs : List Piece → List Arg → List UInt64
  | .text _ :: ps, args => longs ps args
  | .conv .l :: ps, .dword v :: args => v :: longs ps args
  | .conv _ :: ps, _ :: args => longs ps args
  | _, _ => []

/-! ### Numbers -/

theorem digits_getD : ∀ d < 16, digits.getD d 0 = digitChar d := by decide

theorem digitLoop_eq {base : UInt32} (hb : 1 < base.toNat) (hb' : base.toNat ≤ 16) {room : Nat} (hroom : 0 < room) {x : UInt32}
    (hx : x.toNat < base.toNat ^ room) (buf : List UInt8) :
    digitLoop base room x buf = some (buf ++ (numeralText base.toNat x.toNat).reverse) := by
  induction room generalizing x buf with
  | zero => omega
  | succ room ih =>
    have hmod : (x % base).toNat < 16 := by
      rw [UInt32.toNat_mod]
      exact Nat.lt_of_lt_of_le (Nat.mod_lt _ (by omega)) hb'
    rw [digitLoop, digits_getD _ hmod, UInt32.toNat_mod]
    by_cases hlt : x.toNat < base.toNat
    · have h0 : x / base = 0 := by
        apply UInt32.toNat_inj.1
        rw [UInt32.toNat_div, Nat.div_eq_of_lt hlt]
        rfl
      rw [if_neg (not_not.2 h0), numeralText, numeral_of_lt hlt, Nat.mod_eq_of_lt hlt]
      rfl
    · have hge : base.toNat ≤ x.toNat := Nat.le_of_not_lt hlt
      have hdiv : (x / base).toNat = x.toNat / base.toNat := UInt32.toNat_div ..
      have h0 : x / base ≠ 0 := by
        intro h0
        rw [h0] at hdiv
        exact Nat.ne_of_gt (Nat.div_pos hge (by omega)) hdiv.symm
      have hroom' : 0 < room := by
        rcases Nat.eq_zero_or_pos room with rfl | h
        · rw [Nat.pow_one] at hx
          exact absurd hx hlt
        · exact h
      have hlt' : (x / base).toNat < base.toNat ^ room := by
        rw [hdiv]
        exact Nat.div_lt_of_lt_mul (by rwa [Nat.pow_succ, Nat.mul_comm] at hx)
      rw [if_pos h0, ih hroom' hlt', hdiv, numeralText, numeralText, numeral_div hb hge]
      simp

/-- The digits that are shifted out of the highest four bits. -/
theorem ptrLoop_value {n : Nat} (hn : n ≤ 16) (x : UInt64) : ∃ l : List Nat, ptrLoop n x = l.map digitChar ∧ l.length = n ∧
    (∀ d ∈ l, d < 16) ∧ Nat.ofDigits 16 l.reverse = x.toNat / 16 ^ (16 - n) := by
  induction n generalizing x with
  | zero =>
    refine ⟨[], rfl, rfl, by simp, ?_⟩
    exact (Nat.div_eq_of_lt x.toNat_lt).symm
  | succ n ih =>
    obtain ⟨l, hl, hlen, hdigit, hvalue⟩ := ih (by omega) (x <<< 4)
    have hhigh : (x >>> 60).toNat = x.toNat / 16 ^ 15 := by
      rw [UInt64.toNat_shiftRight, Nat.shiftRight_eq_div_pow]
      rfl
    have hlt : (x >>> 60).toNat < 16 := by
      have := x.toNat_lt
      rw [hhigh]
      omega
    have hlow : (x <<< 4).toNat = x.toNat % 16 ^ 15 * 16 := by
      rw [UInt64.toNat_shiftLeft, Nat.shiftLeft_eq]
      exact Nat.mul_mod_mul_right 16 x.toNat (16 ^ 15)
    refine ⟨(x >>> 60).toNat :: l, ?_, by simp [hlen], ?_, ?_⟩
    · rw [ptrLoop, hl, digits_getD _ hlt, List.map_cons]
    · intro d hd
      rcases List.mem_cons.1 hd with rfl | hd
      · exact hlt
      · exact hdigit d hd
    · -- the high digit and the rest of the number
      obtain ⟨k, hk⟩ : ∃ k, n + k = 15 := ⟨15 - n, by omega⟩
      have hexp : 16 - n = k + 1 := by omega
      have hexp' : 16 - (n + 1) = k := by omega
      have hsplit : (16 : Nat) ^ 15 = 16 ^ n * 16 ^ k := by rw [← Nat.pow_add, hk]
      have hpow : (16 : Nat) ^ (k + 1) = 16 ^ k * 16 := Nat.pow_succ ..
      rw [List.reverse_cons, Nat.ofDigits_append, hvalue, List.length_reverse, hlen, Nat.ofDigits_singleton, hlow, hhigh, hexp, hexp',
        hpow, Nat.mul_div_mul_right _ _ (by decide), hsplit, Nat.mod_mul_left_div_self, Nat.mul_comm (16 ^ n) (16 ^ k),
        ← Nat.div_div_eq_div_mul]
      exact Nat.mod_add_div _ _

theorem printptr_eq (x : UInt64) : printptr x = '0'.toUInt8 :: 'x'.toUInt8 :: wideText x.toNat := by
  obtain ⟨l, hl, hlen, hdigit, hvalue⟩ := ptrLoop_value (Nat.le_refl 16) x
  rw [Nat.sub_self, Nat.pow_zero, Nat.div_one] at hvalue
  have hrev := (Nat.setInvOn_digitsAppend_ofDigits (b := 16) (by decide) 16).1
    (show l.reverse ∈ {L : List Nat | L.length = 16 ∧ ∀ x ∈ L, x < 16} from ⟨by simpa using hlen, by simpa using hdigit⟩)
  rw [hvalue] at hrev
  rw [printptr, hl, wideText, hrev, List.reverse_reverse]

theorem printint_unsigned {base : Int32} {v : UInt32} (hb : 1 < base.toUInt32.toNat) (hb' : base.toUInt32.toNat ≤ 16)
    (hv : v.toNat < base.toUInt32.toNat ^ 16) :
    printint v.toInt32 base false = some (numeralText base.toUInt32.toNat v.toNat) := by
  unfold printint
  dsimp only [Bool.false_and]
  rw [if_neg (by simp), UInt32.toUInt32_toInt32, digitLoop_eq hb hb' (by decide) hv]
  simp

/-- The absolute value, as an unsigned number; that of the least number as well. -/
theorem abs_toUInt32 (v : Int32) : (if v < 0 then (-v).toUInt32 else v.toUInt32).toNat = v.toInt.natAbs := by
  have hcond : v.toInt = _ := BitVec.toInt_eq_toNat_cond v.toBitVec
  have hlt := v.toBitVec.isLt
  by_cases hv : v < 0
  · have hneg : v.toInt < 0 := Int32.lt_iff_toInt_lt.1 hv
    have hnat : (-v).toUInt32.toNat = (2 ^ 32 - v.toBitVec.toNat) % 2 ^ 32 := BitVec.toNat_neg v.toBitVec
    rw [if_pos hv, hnat]
    split at hcond <;> omega
  · have hneg : ¬v.toInt < 0 := fun h => hv (Int32.lt_iff_toInt_lt.2 h)
    have hnat : v.toUInt32.toNat = v.toBitVec.toNat := rfl
    rw [if_neg hv, hnat]
    split at hcond <;> omega

theorem printint_signed (v : Int32) : printint v 10 true = some (signedText v.toInt) := by
  have hloop : ∀ x : UInt32, digitLoop (10 : Int32).toUInt32 16 x [] = some (numeralText 10 x.toNat).reverse := fun x =>
    digitLoop_eq (by decide) (by decide) (by decide) (Nat.lt_trans x.toNat_lt (by decide)) []
  have hneg : v < 0 ↔ v.toInt < 0 := Int32.lt_iff_toInt_lt
  have habs := abs_toUInt32 v
  unfold printint
  simp only [Bool.true_and, decide_eq_true_eq]
  rw [hloop, habs, Option.bind_eq_bind, Option.bind_some, signedText]
  by_cases hv : v < 0
  · -- ten digits and the sign
    have hlen : (numeral 10 v.toInt.natAbs).length ≤ 15 := by
      apply numeral_length_le (by decide) (by decide)
      have hlt := v.toInt_lt
      have hle := v.le_toInt
      omega
    rw [if_pos hv, if_pos (hneg.1 hv), if_pos (by simpa [numeralText] using Nat.lt_succ_of_le hlen)]
    simp
  · rw [if_neg hv, if_neg (mt hneg.2 hv), List.reverse_reverse]
    rfl

/-! ### Conversions -/

variable {k : Conv} {a : Arg} {args : List Arg} {fmt want : List UInt8}

/-- The conversion is not one of a number that `%l` cuts off. -/
def Fits : Conv → Arg → Prop
  | .l, .dword v => v.toNat < 2 ^ 32
  | _, _ => True

def Conv.char : Conv → UInt8
  | .d => 'd'.toUInt8
  | .l => 'l'.toUInt8
  | .x => 'x'.toUInt8
  | .p => 'p'.toUInt8
  | .s => 's'.toUInt8
  | .c => 'c'.toUInt8

/-- A number that is cut off has another numeral, which is not longer. -/
theorem numeralText_mod (n : Nat) : (numeralText 10 (n % 2 ^ 32)).length ≤ (numeralText 10 n).length ∧
    (numeralText 10 (n % 2 ^ 32) = numeralText 10 n ↔ n < 2 ^ 32) := by
  constructor
  · rw [numeralText, numeralText, List.length_map, List.length_map]
    exact numeral_length_mono (Nat.mod_le _ _)
  · constructor
    · intro h
      rw [← numeralText_injective (by decide) (by decide) h]
      exact Nat.mod_lt _ (by decide)
    · intro h
      rw [Nat.mod_eq_of_lt h]

theorem convert_conv (h : k.shows a = some want) :
    ∃ out, convert k.char (a :: args) = some (out, args) ∧ out.length ≤ want.length ∧ (out = want ↔ Fits k a) := by
  have hbig : ∀ (x : UInt32) (b : Nat), 10 ≤ b → x.toNat < b ^ 16 := fun x b hb =>
    Nat.lt_of_lt_of_le (Nat.lt_trans x.toNat_lt (by decide : 2 ^ 32 < 10 ^ 16)) (Nat.pow_le_pow_left hb 16)
  cases k <;> cases a <;> cases h
  case d.word v =>
    refine ⟨signedText v.toInt32.toInt, ?_, Nat.le_refl _, by simp [Fits]⟩
    change (do return (← printint v.toInt32 10 true, args)) = _
    rw [printint_signed]
    rfl
  case l.dword v =>
    have hv : v.toUInt32.toNat = v.toNat % 2 ^ 32 := UInt64.toNat_toUInt32 v
    obtain ⟨hlen, hiff⟩ := numeralText_mod v.toNat
    refine ⟨numeralText 10 (v.toNat % 2 ^ 32), ?_, hlen, hiff⟩
    change (do return (← printint v.toUInt32.toInt32 10 false, args)) = _
    rw [printint_unsigned (by decide) (by decide) (hbig _ _ (by decide)), hv]
    rfl
  case x.word v =>
    refine ⟨numeralText 16 v.toNat, ?_, Nat.le_refl _, by simp [Fits]⟩
    change (do return (← printint v.toInt32 16 false, args)) = _
    rw [printint_unsigned (by decide) (by decide) (hbig _ _ (by decide))]
    rfl
  case p.dword v =>
    refine ⟨printptr v, rfl, ?_, ?_⟩
    · rw [printptr_eq]
    · simp [Fits, printptr_eq]
  case s.str t => exact ⟨_, rfl, Nat.le_refl _, by simp [Fits]⟩
  case c.word v => exact ⟨_, rfl, Nat.le_refl _, by simp [Fits]⟩

/-- The character behind a `%` belongs to a conversion, or it is printed. -/
theorem piece_cases (c : UInt8) : (∃ k, piece c = .conv k ∧ c = k.char) ∨
    ∃ t, piece c = .text t ∧ ∀ args, convert c args = some (t, args) := by
  unfold piece convert
  by_cases hd : c = 'd'.toUInt8
  · exact .inl ⟨.d, by rw [if_pos hd], hd⟩
  by_cases hl : c = 'l'.toUInt8
  · exact .inl ⟨.l, by rw [if_neg hd, if_pos hl], hl⟩
  by_cases hx : c = 'x'.toUInt8
  · exact .inl ⟨.x, by rw [if_neg hd, if_neg hl, if_pos hx], hx⟩
  by_cases hp : c = 'p'.toUInt8
  · exact .inl ⟨.p, by rw [if_neg hd, if_neg hl, if_neg hx, if_pos hp], hp⟩
  by_cases hs : c = 's'.toUInt8
  · exact .inl ⟨.s, by rw [if_neg hd, if_neg hl, if_neg hx, if_neg hp, if_pos hs], hs⟩
  by_cases hc : c = 'c'.toUInt8
  · exact .inl ⟨.c, by rw [if_neg hd, if_neg hl, if_neg hx, if_neg hp, if_neg hs, if_pos hc], hc⟩
  right
  rw [if_neg hd, if_neg hl, if_neg hx, if_neg hp, if_neg hs, if_neg hc]
  simp only [if_neg hd, if_neg hl, if_neg hx, if_neg hp, if_neg hs, if_neg hc]
  by_cases h : c = '%'.toUInt8
  · exact ⟨[c], by rw [if_pos h], fun _ => by rw [if_pos h]⟩
  · exact ⟨['%'.toUInt8, c], by rw [if_neg h], fun _ => by rw [if_neg h]⟩

/-- Texts in a row are the same if none of them is longer than it should be. -/
theorem append_eq_iff {x y x' y' : List UInt8} (hx : x.length ≤ x'.length) (hy : y.length ≤ y'.length) :
    x ++ y = x' ++ y' ↔ x = x' ∧ y = y' := by
  constructor
  · intro h
    have hlen := congrArg List.length h
    rw [List.length_append, List.length_append] at hlen
    exact List.append_inj h (by omega)
  · rintro ⟨rfl, rfl⟩
    rfl

theorem longs_conv (k : Conv) (ps : List Piece) (a : Arg) (args : List Arg) (h : (k.shows a).isSome) :
    (∀ v ∈ longs (.conv k :: ps) (a :: args), v.toNat < 2 ^ 32) ↔ Fits k a ∧ ∀ v ∈ longs ps args, v.toNat < 2 ^ 32 := by
  cases k <;> cases a <;> simp [Conv.shows, longs, Fits] at h ⊢

/-- The loop over the rest of the format. -/
theorem formatLoop_eq (h : expected (pieces fmt) args = some want) :
    ∃ out, formatLoop fmt 0 args = some out ∧ out.length ≤ want.length ∧
      (out = want ↔ ∀ v ∈ longs (pieces fmt) args, v.toNat < 2 ^ 32) := by
  induction fmt using pieces.induct generalizing args want with
  | case1 =>
    cases h
    exact ⟨[], rfl, Nat.le_refl _, by simp [pieces, longs]⟩
  | case2 =>
    rw [pieces, if_pos rfl] at h ⊢
    cases h
    exact ⟨[], rfl, Nat.le_refl _, by simp [longs]⟩
  | case3 c hc =>
    rw [pieces, if_neg hc] at h ⊢
    cases h
    refine ⟨[c], ?_, Nat.le_refl _, by simp [longs]⟩
    rw [formatLoop, if_pos rfl, if_neg hc]
    rfl
  | case4 d fmt ih =>
    rw [pieces, if_pos rfl] at h ⊢
    rw [formatLoop, if_pos rfl, if_pos rfl, formatLoop, if_neg (by decide), if_pos rfl]
    rcases piece_cases d with ⟨k, hk, rfl⟩ | ⟨t, ht, hconv⟩
    · rw [hk] at h ⊢
      cases args with
      | nil => cases h
      | cons a args =>
        rw [expected, Option.bind_eq_bind, Option.bind_eq_some_iff] at h
        obtain ⟨w, hw, h⟩ := h
        rw [Option.bind_eq_some_iff] at h
        obtain ⟨ws, hws, h⟩ := h
        cases h
        obtain ⟨x, hx, hxlen, hxiff⟩ := @convert_conv k a args w hw
        obtain ⟨xs, hxs, hlen, hiff⟩ := ih hws
        refine ⟨x ++ xs, ?_, ?_, ?_⟩
        · rw [hx, Option.bind_eq_bind, Option.bind_some]
          dsimp only
          rw [hxs]
          rfl
        · rw [List.length_append, List.length_append]
          omega
        · rw [append_eq_iff hxlen hlen, longs_conv k _ _ _ (by rw [hw]; rfl), hxiff, hiff]
    · rw [ht] at h ⊢
      rw [expected, Option.bind_eq_bind, Option.bind_eq_some_iff] at h
      obtain ⟨ws, hws, h⟩ := h
      cases h
      obtain ⟨xs, hxs, hlen, hiff⟩ := ih hws
      refine ⟨t ++ xs, ?_, ?_, ?_⟩
      · rw [hconv, Option.bind_eq_bind, Option.bind_some]
        dsimp only
        rw [hxs]
        rfl
      · rw [List.length_append, List.length_append]
        omega
      · rw [List.append_cancel_left_eq, hiff, longs]
  | case5 c d fmt hc ih =>
    rw [pieces, if_neg hc] at h ⊢
    rw [expected, Option.bind_eq_bind, Option.bind_eq_some_iff] at h
    obtain ⟨ws, hws, h⟩ := h
    cases h
    obtain ⟨xs, hxs, hlen, hiff⟩ := ih hws
    refine ⟨c :: xs, ?_, ?_, ?_⟩
    · rw [formatLoop, if_pos rfl, if_neg hc, hxs]
      rfl
    · simpa using hlen
    · rw [List.singleton_append, List.cons.injEq, longs, ← hiff]
      simp

end Printf

open Printf

/-- For arguments that match the format, `vprintf` prints the text that is expected, with each number as its shortest numeral, if and
only if no argument for `%l` needs more than 32 bits.  The digits of all numbers have room in the buffer. -/
theorem vprintf_prints_iff {fmt want : List UInt8} {args : List Arg} (h : expected (pieces fmt) args = some want) :
    ∃ out, vprintf fmt args = some out ∧ (out = want ↔ ∀ v ∈ longs (pieces fmt) args, v.toNat < 2 ^ 32) := by
  obtain ⟨out, hrun, -, hiff⟩ := formatLoop_eq h
  exact ⟨out, hrun, hiff⟩

/-- The least number, and a number that `%l` prints. -/
theorem vprintf_prints_iff_small : ∃ out, vprintf ['%'.toUInt8, 'd'.toUInt8, ' '.toUInt8, '%'.toUInt8, 'l'.toUInt8]
    [.word 0x80000000, .dword 7] = some out ∧
      (out = signedText (-2147483648) ++ [32] ++ numeralText 10 7 ↔ ∀ v ∈ [(7 : UInt64)], v.toNat < 2 ^ 32) :=
  vprintf_prints_iff rfl

/-- The number `2 ^ 32` is printed as zero. -/
theorem vprintf_cuts_off :
    expected (pieces ['%'.toUInt8, 'l'.toUInt8]) [.dword 0x100000000] = some (numeralText 10 0x100000000) ∧
      vprintf ['%'.toUInt8, 'l'.toUInt8] [.dword 0x100000000] = some (numeralText 10 0) ∧
      numeralText 10 0 ≠ numeralText 10 0x100000000 :=
  ⟨rfl, rfl, fun h => absurd (numeralText_injective (by decide) (by decide) h) (by decide)⟩

end Xv6
