import Xv6.Lib.Lines
import Xv6.Lib.Memory
import Xv6.Lib.Numeral
import Xv6.Lib.Wp

/-!
# `cat`

`readline` reads one byte after the other into the buffer, up to a newline.  For a last line without one it counts a byte that it has
not read: `cat` writes what an earlier line left there, or the null from the beginning.  For streams that end with a newline `cat`
writes them as they are, or with the numbers of the lines, as long as an `int` can count them (`cat_copies_iff`).
-/

namespace Xv6

open Function (update)

open Memory

namespace Cat

def BUFSIZE : Nat := 512

def NUMSIZE : Nat := 6

def NUMWIDTH : Nat := NUMSIZE + 2

def blank : UInt8 := ' '.toUInt8

/-- The memory, what is left of the input, and what has been written; `bad` says that reading fails behind the input, and `full` that
nothing can be written. -/
structure St where
  mem : Memory
  input : List UInt8
  out : List UInt8
  bad : Bool
  full : Bool

/-- An error is an exit, with its message. -/
abbrev CatM := EStateM String St

/-- `read` of one byte, with the byte. -/
def read : CatM (Int32 × UInt8) := do
  let s ← get
  match s.input with
  | [] => return (if s.bad then -1 else 0, 0)
  | c :: input => do
    set { s with input := input }
    return (1, c)

def write (l : List UInt8) : CatM Int32 := do
  let s ← get
  if s.full then return -1
  else do
    set { s with out := s.out ++ l }
    return .ofNat l.length

def setByte (a : UInt64) (c : UInt8) : CatM Unit := modify fun s => { s with mem := update s.mem a c }

/-- The loop of `readline`, with `n` and `i`. -/
def readlineLoop (buf : UInt64) (maxlen : Nat) : Nat → Nat → CatM (Int32 × Nat)
  | 0, _ => throw "spin"
  | fuel + 1, i => do
    let (n, c) ← read
    if n > 0 then
      setByte (buf + .ofNat i) c
      if c = newline then return (n, i)
      else if i + 1 ≥ maxlen - 1 then throw "readline() - line too long"
      else readlineLoop buf maxlen fuel (i + 1)
    else return (n, i)

def readline (fuel : Nat) (buf : UInt64) (maxlen : Nat) : CatM Int32 := do
  let (n, i) ← readlineLoop buf maxlen fuel 0
  if (n = 0 ∧ i = 0) ∨ n < 0 then return n
  else do
    setByte (buf + .ofNat (i + 1)) 0
    return .ofNat (i + 1)

/-- The loop of `int_to_str` that fills `tmp`, with `room` for more characters; `none` if it would write behind it. -/
def digitLoop : Nat → Int32 → List UInt8 → Option (List UInt8)
  | room, value, tmp =>
    if value = 0 then some tmp
    else match room with
    | 0 => none
    | room + 1 => digitLoop room (value / 10) (tmp ++ [.ofInt ('0'.toNat + (value % 10).toInt)])

/-- What `int_to_str` leaves in `str`. -/
def intToStr (value : Int32) : Option (List UInt8) :=
  (if value = 0 then some ['0'.toUInt8] else digitLoop 32 value []).map fun tmp =>
    List.replicate (NUMSIZE - tmp.length) blank ++ tmp.reverse ++ [blank, blank, 0]

/-- The number of the line, if it is asked for. -/
def writeNumber (linenums : Bool) (i : Int32) : CatM Unit :=
  if linenums then
    match intToStr i with
    | none => throw "overrun"
    | some str => do
      if (← write (str.take NUMWIDTH)) = .ofNat NUMWIDTH then return
      else throw "cat: write error"
  else return

/-- The first `n` bytes of the buffer. -/
def writeLine (buf : UInt64) (n : Int32) : CatM Unit := do
  let s ← get
  if (← write (load s.mem buf n.toNatClampNeg)) = n then return
  else throw "cat: write error"

/-- The loop of `cat`, at line `i`. -/
def catLoop (fuel : Nat) (buf : UInt64) (linenums : Bool) : Nat → Int32 → CatM Unit
  | 0, _ => throw "spin"
  | turns + 1, i => do
    let n ← readline fuel buf BUFSIZE
    if n > 0 then do
      writeNumber linenums i
      writeLine buf n
      catLoop fuel buf linenums turns (i + 1)
    else if n < 0 then throw "cat: read error"
    else return

end Cat

/-- `buf` is the address of the buffer. -/
def cat (fuel : Nat) (buf : UInt64) (linenums : Bool) : Cat.CatM Unit := Cat.catLoop fuel buf linenums fuel 1

namespace Cat

/-! ### Numbers of lines -/

/-- The number, at the right end of six characters, and two blanks, as far as they fit into the field. -/
def numberField (n : Nat) : List UInt8 :=
  (List.replicate (NUMSIZE - (numeralText 10 n).length) blank ++ numeralText 10 n ++ [blank, blank]).take NUMWIDTH

theorem toInt_div_ten (value : Int32) : (value / 10).toInt = value.toInt.tdiv 10 := Int32.toInt_div_of_ne_right value 10 (by decide)

theorem digitLoop_some {room : Nat} {value : Int32} (h : value.toInt.natAbs < 10 ^ room) (tmp : List UInt8) :
    ∃ tmp', digitLoop room value tmp = some tmp' := by
  induction room generalizing value tmp with
  | zero =>
    have h0 : value = 0 := by
      apply Int32.toInt_inj.1
      rw [Int32.toInt_zero]
      omega
    exact ⟨tmp, by rw [digitLoop, if_pos h0]⟩
  | succ room ih =>
    rw [digitLoop]
    by_cases h0 : value = 0
    · exact ⟨tmp, by rw [if_pos h0]⟩
    · rw [if_neg h0]
      apply ih
      rw [toInt_div_ten, Int.natAbs_tdiv]
      exact Nat.div_lt_of_lt_mul (by rwa [Nat.pow_succ, Nat.mul_comm] at h)

theorem digitLoop_zero (room : Nat) (tmp : List UInt8) : digitLoop room 0 tmp = some tmp := by
  cases room <;> rw [digitLoop, if_pos rfl]

theorem digit_ofInt : ∀ d < 10, UInt8.ofInt ('0'.toNat + (d : Nat)) = digitChar d := by decide

theorem digitLoop_pos {room : Nat} {value : Int32} {n : Nat} (hn : n < 10 ^ room) (hv : value.toInt = n) (h0 : 0 < n) (tmp : List UInt8) :
    digitLoop room value tmp = some (tmp ++ (numeralText 10 n).reverse) := by
  induction room generalizing value n tmp with
  | zero => omega
  | succ room ih =>
    have hne : value ≠ 0 := by
      rintro rfl
      rw [Int32.toInt_zero] at hv
      omega
    have hmod : (value % 10).toInt = ((n % 10 : Nat) : Int) := by
      rw [Int32.toInt_mod, hv]
      rfl
    have hdiv : (value / 10).toInt = ((n / 10 : Nat) : Int) := by
      rw [toInt_div_ten, hv]
      rfl
    rw [digitLoop, if_neg hne, hmod, digit_ofInt _ (Nat.mod_lt _ (by decide))]
    by_cases hlt : n < 10
    · have hzero : value / 10 = 0 := by
        apply Int32.toInt_inj.1
        rw [hdiv, Nat.div_eq_of_lt hlt]
        rfl
      rw [hzero, digitLoop_zero, numeralText, numeral_of_lt hlt, Nat.mod_eq_of_lt hlt]
      rfl
    · have hlt' : n / 10 < 10 ^ room := Nat.div_lt_of_lt_mul (by rwa [Nat.pow_succ, Nat.mul_comm] at hn)
      rw [ih hlt' hdiv (by omega), numeralText, numeralText, numeral_div (by decide) (Nat.le_of_not_lt hlt)]
      simp

/-- The eight characters for line `i`. -/
def fieldAt (i : Int32) : List UInt8 := ((intToStr i).getD []).take NUMWIDTH

theorem intToStr_some (i : Int32) : ∃ str, intToStr i = some str ∧ fieldAt i = str.take NUMWIDTH ∧ (fieldAt i).length = NUMWIDTH := by
  obtain ⟨tmp, htmp⟩ : ∃ tmp, (if i = 0 then some ['0'.toUInt8] else digitLoop 32 i []) = some tmp := by
    by_cases h0 : i = 0
    · exact ⟨_, by rw [if_pos h0]⟩
    · rw [if_neg h0]
      apply digitLoop_some
      have hlt := i.toInt_lt
      have hle := i.le_toInt
      omega
  have hstr : intToStr i = some (List.replicate (NUMSIZE - tmp.length) blank ++ tmp.reverse ++ [blank, blank, 0]) := by
    rw [intToStr, htmp]
    rfl
  refine ⟨_, hstr, by rw [fieldAt, hstr]; rfl, ?_⟩
  rw [fieldAt, hstr]
  simp [NUMSIZE, NUMWIDTH]
  omega

theorem fieldAt_eq {i : Nat} (h0 : 0 < i) (hi : i < 2 ^ 31) : fieldAt (.ofNat i) = numberField i := by
  have hint : (Int32.ofNat i).toInt = i := Int32.toInt_ofNat_of_lt hi
  have hne : Int32.ofNat i ≠ 0 := by
    intro h
    rw [h, Int32.toInt_zero] at hint
    omega
  have hlen : ∀ l : List UInt8, NUMWIDTH ≤ (List.replicate (NUMSIZE - l.length) blank ++ l ++ [blank, blank]).length := by
    intro l
    simp [NUMSIZE, NUMWIDTH]
    omega
  have hcut : ∀ l : List UInt8, (List.replicate (NUMSIZE - l.length) blank ++ l ++ [blank, blank, 0]).take NUMWIDTH =
      (List.replicate (NUMSIZE - l.length) blank ++ l ++ [blank, blank]).take NUMWIDTH := fun l => by
    rw [show [blank, blank, 0] = [blank, blank] ++ [0] from rfl, ← List.append_assoc]
    exact List.take_append_of_le_length (hlen l)
  rw [fieldAt, intToStr, if_neg hne, digitLoop_pos (Nat.lt_trans hi (by decide)) hint h0, Option.map_some, Option.getD_some,
    List.nil_append, List.reverse_reverse, List.length_reverse, hcut, numberField]

theorem numberField_length (n : Nat) : (numberField n).length = NUMWIDTH := by
  rw [numberField, List.length_take]
  simp [NUMSIZE, NUMWIDTH]
  omega

theorem fieldAt_overflow : fieldAt (.ofNat (2 ^ 31)) ≠ numberField (2 ^ 31) := by decide

/-! ### Lines -/

variable {s : St} {buf : UInt64} {held a rest tail : List UInt8} {E : String → St → Prop}

theorem wp_read_cons {c : UInt8} {input : List UInt8} (h : s.input = c :: input) (Q : Int32 × UInt8 → St → Prop) :
    wp read Q E s = Q (1, c) { s with input := input } := by
  unfold read
  rw [wp_bind, wp_get]
  dsimp only
  rw [h]
  rfl

theorem wp_read_nil (h : s.input = []) (hbad : s.bad = false) (Q : Int32 × UInt8 → St → Prop) : wp read Q E s = Q (0, 0) s := by
  unfold read
  rw [wp_bind, wp_get]
  dsimp only
  rw [h, hbad]
  rfl

theorem wp_write (l : List UInt8) (hfull : s.full = false) (Q : Int32 → St → Prop) :
    wp (write l) Q E s = Q (.ofNat l.length) { s with out := s.out ++ l } := by
  unfold write
  rw [wp_bind, wp_get]
  dsimp only
  rw [hfull]
  rfl

theorem wp_setByte (x : UInt64) (c : UInt8) (Q : Unit → St → Prop) :
    wp (setByte x c) Q E s = Q () { s with mem := update s.mem x c } := rfl

/-- The loop goes on behind bytes that are no newline. -/
theorem readlineLoop_skip (hs : Holds s.mem buf held) (hin : s.input = a ++ tail) (ha : newline ∉ a)
    (hlen : held.length + a.length < BUFSIZE - 1) {fuel : Nat} {Q : Int32 × Nat → St → Prop}
    (hnext : ∀ m', Holds m' buf (held ++ a) →
      wp (readlineLoop buf BUFSIZE fuel (held ++ a).length) Q E { s with mem := m', input := tail }) :
    wp (readlineLoop buf BUFSIZE (fuel + a.length) held.length) Q E s := by
  induction a generalizing s held with
  | nil =>
    have := hnext s.mem (by rwa [List.append_nil])
    rw [List.nil_append] at hin
    rw [List.append_nil, ← hin] at this
    exact this
  | cons c a ih =>
    have hc : c ≠ newline := fun h => ha (h ▸ List.mem_cons_self)
    have hb : BUFSIZE = 512 := rfl
    rw [List.length_cons] at hlen
    rw [List.length_cons, ← Nat.add_assoc, readlineLoop, wp_bind, wp_read_cons hin]
    dsimp only
    rw [wp_ite, if_pos (by decide), wp_bind, wp_setByte, wp_ite, if_neg hc, wp_ite, if_neg (by omega)]
    have hsnoc := hs.snoc (show held.length < 2 ^ 64 by omega) c
    have hih := @ih { s with mem := update s.mem (buf + .ofNat held.length) c, input := a ++ tail } (held ++ [c]) hsnoc rfl
      (fun h => ha (List.mem_cons_of_mem _ h)) (by simp; omega)
    have hlen' : (held ++ [c]).length = held.length + 1 := by rw [List.length_append, List.length_singleton]
    rw [hlen'] at hih
    apply hih
    intro m' hm'
    rw [List.append_assoc, List.singleton_append] at hm' ⊢
    exact hnext m' hm'

/-- A line with its newline. -/
theorem readline_line (hin : s.input = a ++ newline :: rest) (ha : newline ∉ a) (hlen : a.length < BUFSIZE - 1) {fuel : Nat}
    (hf : a.length < fuel) {Q : Int32 → St → Prop}
    (hQ : ∀ m', Holds m' buf (a ++ [newline]) → Q (.ofNat (a.length + 1)) { s with mem := m', input := rest }) :
    wp (readline fuel buf BUFSIZE) Q E s := by
  have hb : BUFSIZE = 512 := rfl
  obtain ⟨fuel, rfl⟩ : ∃ n, fuel = n + 1 + a.length := ⟨fuel - 1 - a.length, by omega⟩
  unfold readline
  rw [wp_bind]
  refine @readlineLoop_skip s buf [] a _ E holds_nil hin ha (by simpa using hlen) _ _ fun m hm => ?_
  rw [List.nil_append] at hm ⊢
  rw [readlineLoop, wp_bind, wp_read_cons rfl]
  dsimp only
  rw [wp_ite, if_pos (by decide), wp_bind, wp_setByte, wp_ite, if_pos rfl, wp_pure]
  dsimp only
  rw [wp_ite, if_neg (by simp), wp_bind, wp_setByte, wp_pure]
  exact hQ _ ((hm.snoc (by omega) newline).update_of_le (by simp) (by omega) 0)

/-- A last line without one. -/
theorem readline_last (hin : s.input = a) (ha : newline ∉ a) (hne : a ≠ []) (hbad : s.bad = false) (hlen : a.length < BUFSIZE - 1)
    {fuel : Nat} (hf : a.length < fuel) {Q : Int32 → St → Prop}
    (hQ : ∀ m', Holds m' buf a → Q (.ofNat (a.length + 1)) { s with mem := m', input := [] }) :
    wp (readline fuel buf BUFSIZE) Q E s := by
  have hb : BUFSIZE = 512 := rfl
  obtain ⟨fuel, rfl⟩ : ∃ n, fuel = n + 1 + a.length := ⟨fuel - 1 - a.length, by omega⟩
  have hpos := List.length_pos_iff.2 hne
  unfold readline
  rw [wp_bind]
  refine @readlineLoop_skip s buf [] a [] E holds_nil (by simpa using hin) ha (by simpa using hlen) _ _ fun m hm => ?_
  rw [List.nil_append] at hm ⊢
  rw [readlineLoop, wp_bind, wp_read_nil (s := { s with mem := m, input := [] }) rfl hbad]
  dsimp only
  rw [wp_ite, if_neg (by decide), wp_pure]
  dsimp only
  rw [wp_ite, if_neg (by simp; omega), wp_bind, wp_setByte, wp_pure]
  exact hQ _ (hm.update_of_le (by omega) (by omega) 0)

theorem readline_end (hin : s.input = []) (hbad : s.bad = false) {fuel : Nat} (hf : 0 < fuel) {Q : Int32 → St → Prop} (hQ : Q 0 s) :
    wp (readline fuel buf BUFSIZE) Q E s := by
  obtain ⟨fuel, rfl⟩ : ∃ n, fuel = n + 1 := ⟨fuel - 1, by omega⟩
  unfold readline
  rw [wp_bind, readlineLoop, wp_bind, wp_read_nil hin hbad]
  dsimp only
  rw [wp_ite, if_neg (by decide), wp_pure]
  dsimp only
  rw [wp_ite, if_pos (by simp), wp_pure]
  exact hQ

/-! ### The output -/

def numberedLines (field : Nat → List UInt8) : Nat → List (List UInt8) → List UInt8
  | _, [] => []
  | i, l :: ls => field i ++ (l ++ [newline]) ++ numberedLines field (i + 1) ls

/-- The stream, with a field before each line, from line `i` on. -/
def numbered (field : Nat → List UInt8) (i : Nat) (input : List UInt8) : List UInt8 :=
  numberedLines field i (lines newline input) ++
    if lastLine newline input = [] then [] else field (i + (lines newline input).length) ++ lastLine newline input

theorem numbered_last (field : Nat → List UInt8) (i : Nat) (ha : newline ∉ a) :
    numbered field i a = if a = [] then [] else field i ++ a := by
  rw [numbered, lines_of_notMem ha, lastLine_of_notMem ha]
  rfl

theorem numbered_line (field : Nat → List UInt8) (i : Nat) (ha : newline ∉ a) :
    numbered field i (a ++ newline :: rest) = field i ++ (a ++ [newline]) ++ numbered field (i + 1) rest := by
  rw [numbered, lines_append_cons ha, lastLine_append_cons ha, numberedLines, List.append_assoc, numbered, List.length_cons,
    Nat.add_assoc i 1, Nat.add_comm 1]

/-- Without fields it is the stream. -/
theorem numbered_nil (i : Nat) (input : List UInt8) : numbered (fun _ => []) i input = input := by
  induction input using lines_induction newline generalizing i with
  | hlast a ha =>
    rw [numbered_last _ i ha]
    split
    · rw [‹a = []›]
    · rfl
  | hline a b ha ih => rw [numbered_line _ i ha, ih, List.nil_append, List.append_assoc, List.singleton_append]

/-- What `cat` writes before line `i`. -/
def prefixOf (linenums : Bool) (i : Nat) : List UInt8 := if linenums then fieldAt (.ofNat i) else []

theorem wp_writeNumber (linenums : Bool) (i : Nat) (hfull : s.full = false) (Q : Unit → St → Prop) :
    wp (writeNumber linenums (.ofNat i)) Q E s = Q () { s with out := s.out ++ prefixOf linenums i } := by
  unfold writeNumber prefixOf
  cases linenums with
  | false =>
    rw [if_neg (by simp), if_neg (by simp), List.append_nil]
    rfl
  | true =>
    obtain ⟨str, hstr, hfield, hlen⟩ := intToStr_some (.ofNat i)
    rw [if_pos rfl, if_pos rfl, hstr]
    dsimp only
    rw [wp_bind, wp_write _ hfull, ← hfield, hlen, wp_ite, if_pos rfl, wp_pure]

theorem wp_writeLine {n : Nat} (hn : n < 2 ^ 31) (hfull : s.full = false) (Q : Unit → St → Prop) :
    wp (writeLine buf (.ofNat n)) Q E s = Q () { s with out := s.out ++ load s.mem buf n } := by
  have hlen : (load s.mem buf n).length = n := by rw [load, List.length_map, List.length_range]
  unfold writeLine
  rw [wp_bind, wp_get]
  dsimp only
  rw [wp_bind, wp_write _ hfull, Int32.toNatClampNeg_ofNat_of_lt hn, hlen, wp_ite, if_pos rfl, wp_pure]

/-- A line has been read and is written. -/
theorem catLoop_turn {linenums : Bool} {n i fuel turns : Nat} (hfull : s.full = false) (hn0 : 0 < n) (hn : n < 2 ^ 31)
    {Q : Unit → St → Prop}
    (hread : ∀ {Q : Int32 → St → Prop}, (∀ m', Holds m' buf a → Q (.ofNat n) { s with mem := m', input := rest }) →
      wp (readline fuel buf BUFSIZE) Q E s)
    (hnext : ∀ m', Holds m' buf a → wp (catLoop fuel buf linenums turns (.ofNat (i + 1))) Q E
      { s with mem := m', input := rest, out := s.out ++ prefixOf linenums i ++ load m' buf n }) :
    wp (catLoop fuel buf linenums (turns + 1) (.ofNat i)) Q E s := by
  have hpos : Int32.ofNat n > 0 := by
    rw [gt_iff_lt, Int32.lt_iff_toInt_lt, Int32.toInt_zero, Int32.toInt_ofNat_of_lt hn]
    omega
  have hadd : Int32.ofNat i + 1 = .ofNat (i + 1) := (Int32.ofNat_add i 1).symm
  rw [catLoop, wp_bind]
  refine hread fun m' hm' => ?_
  rw [wp_ite, if_pos hpos, wp_bind, wp_writeNumber _ _ (s := { s with mem := m', input := rest }) hfull, wp_bind,
    wp_writeLine hn (s := { s with mem := m', input := rest, out := _ }) hfull, hadd]
  exact hnext m' hm'

theorem catLoop_end {linenums : Bool} {i fuel turns : Nat} (hin : s.input = []) (hbad : s.bad = false) (hf : 0 < fuel)
    {Q : Unit → St → Prop} (hQ : Q () s) : wp (catLoop fuel buf linenums (turns + 1) (.ofNat i)) Q E s := by
  rw [catLoop, wp_bind]
  refine readline_end hin hbad hf ?_
  rw [wp_ite, if_neg (by decide), wp_ite, if_neg (by decide), wp_pure]
  exact hQ

/-- The loop writes the lines with their fields; behind a last line without a newline it writes a byte more. -/
theorem catLoop_wp {linenums : Bool} {fuel turns i : Nat} (hbad : s.bad = false) (hfull : s.full = false)
    (hlines : ∀ l ∈ lines newline s.input, l.length < BUFSIZE - 1) (hlast : (lastLine newline s.input).length < BUFSIZE - 1)
    (hf : s.input.length < fuel) (ht : (lines newline s.input).length + 1 < turns) :
    wp (catLoop fuel buf linenums turns (.ofNat i))
      (fun _ s' => ∃ c : UInt8, s'.out =
        s.out ++ (numbered (prefixOf linenums) i s.input ++ if lastLine newline s.input = [] then [] else [c])) (fun _ _ => False) s := by
  have hb : BUFSIZE = 512 := rfl
  generalize hin : s.input = input at *
  induction input using lines_induction newline generalizing s i turns with
  | hlast a ha =>
    rw [lastLine_of_notMem ha] at hlast ⊢
    rw [lines_of_notMem ha] at ht
    rw [numbered_last _ i ha]
    obtain ⟨turns, rfl⟩ : ∃ n, turns = n + 1 + 1 := ⟨turns - 2, by simp at ht; omega⟩
    by_cases hne : a = []
    · refine catLoop_end (hin.trans hne) hbad (Nat.zero_lt_of_lt hf) ?_
      exact ⟨0, by simp [hne]⟩
    · refine catLoop_turn hfull (by omega : 0 < a.length + 1) (by omega) (readline_last hin ha hne hbad hlast hf) fun m' hm' => ?_
      refine catLoop_end (s := { s with mem := m', input := [], out := _ }) rfl hbad (Nat.zero_lt_of_lt hf) ?_
      refine ⟨m' (buf + .ofNat a.length), ?_⟩
      have hload : load m' buf (a.length + 1) = a ++ [m' (buf + .ofNat a.length)] := by
        rw [load, List.range_succ, List.map_append, ← load, hm'.load_eq]
        rfl
      rw [hload, if_neg hne, if_neg hne]
      simp
  | hline a b ha ih =>
    rw [lines_append_cons ha] at hlines ht
    rw [lastLine_append_cons ha] at hlast ⊢
    rw [List.length_append, List.length_cons] at hf
    rw [List.length_cons] at ht
    obtain ⟨turns, rfl⟩ : ∃ n, turns = n + 1 := ⟨turns - 1, by omega⟩
    have hlen : a.length < BUFSIZE - 1 := hlines a List.mem_cons_self
    refine catLoop_turn hfull (by omega : 0 < a.length + 1) (by omega) (readline_line hin ha hlen (by omega)) fun m' hm' => ?_
    have hload : load m' buf (a.length + 1) = a ++ [newline] := by
      have := hm'.load_eq
      rwa [List.length_append, List.length_singleton] at this
    rw [hload]
    refine wp_mono (ih (s := { s with mem := m', input := b, out := _ }) hbad hfull rfl
      (fun l hl => hlines l (List.mem_cons_of_mem _ hl)) hlast (by omega) (by omega)) ?_ fun _ _ h => h
    rintro - s' ⟨c, hc⟩
    refine ⟨c, ?_⟩
    rw [hc, numbered_line _ i ha]
    simp

theorem numberedLines_eq_iff {f g : Nat → List UInt8} (hfg : ∀ i, (f i).length = (g i).length) (ls : List (List UInt8)) (i : Nat) :
    (numberedLines f i ls).length = (numberedLines g i ls).length ∧
      (numberedLines f i ls = numberedLines g i ls ↔ ∀ j < ls.length, f (i + j) = g (i + j)) := by
  induction ls generalizing i with
  | nil => simp [numberedLines]
  | cons l ls ih =>
    obtain ⟨hlen, hiff⟩ := ih (i + 1)
    constructor
    · simp only [numberedLines, List.length_append, hfg, hlen]
    · rw [numberedLines, numberedLines]
      constructor
      · intro h
        simp only [List.append_assoc] at h
        obtain ⟨hfield, hrest⟩ := List.append_inj h (hfg i)
        have hall := hiff.1 (List.append_cancel_left (List.append_cancel_left hrest))
        intro j hj
        cases j with
        | zero => exact hfield
        | succ j =>
          have := hall j (Nat.lt_of_succ_lt_succ hj)
          rwa [Nat.add_assoc, Nat.add_comm 1] at this
      · intro h
        have h0 := h 0 (Nat.succ_pos _)
        rw [Nat.add_zero] at h0
        rw [h0, hiff.2 fun j hj => ?_]
        rw [Nat.add_assoc, Nat.add_comm 1]
        exact h (j + 1) (Nat.succ_lt_succ hj)

/-- With a byte more behind a last line, only streams without one come out right, and only if all fields do. -/
theorem numbered_eq_iff {f g : Nat → List UInt8} (hfg : ∀ i, (f i).length = (g i).length) (input : List UInt8) (c : UInt8) (i : Nat) :
    (numbered f i input ++ if lastLine newline input = [] then [] else [c]) = numbered g i input ↔
      lastLine newline input = [] ∧ ∀ j < (lines newline input).length, f (i + j) = g (i + j) := by
  obtain ⟨hlen, hiff⟩ := numberedLines_eq_iff hfg (lines newline input) i
  unfold numbered
  by_cases hl : lastLine newline input = []
  · simp only [if_pos hl, List.append_nil]
    rw [hiff]
    exact ⟨fun h => ⟨hl, h⟩, fun h => h.2⟩
  · simp only [if_neg hl]
    constructor
    · intro h
      have := congrArg List.length h
      simp only [List.length_append, hlen, hfg] at this
      simp at this
    · intro h
      exact absurd h.1 hl

end Cat

open Cat

/-- For a stream with short lines, `cat` writes it as it is, or with the number of each line, if and only if nothing comes behind its
last newline and, for the numbers, an `int` can count the lines. -/
theorem cat_copies_iff {s : St} (hbad : s.bad = false) (hfull : s.full = false)
    (hlines : ∀ l ∈ lastLine newline s.input :: lines newline s.input, l.length < BUFSIZE - 1) (buf : UInt64) :
    (∃ n, ∀ fuel ≥ n, ∃ s' out, cat fuel buf false s = .ok () s' ∧ s'.out = s.out ++ out ∧
      (out = s.input ↔ s.input = [] ∨ s.input.getLast? = some newline)) ∧
    ∃ n, ∀ fuel ≥ n, ∃ s' out, cat fuel buf true s = .ok () s' ∧ s'.out = s.out ++ out ∧
      (out = numbered numberField 1 s.input ↔
        (s.input = [] ∨ s.input.getLast? = some newline) ∧ (lines newline s.input).length < 2 ^ 31) := by
  have hrun : ∀ linenums, ∃ n, ∀ fuel ≥ n, ∃ s' out, cat fuel buf linenums s = .ok () s' ∧ s'.out = s.out ++ out ∧
      ∀ g, (∀ i, (prefixOf linenums i).length = (g i).length) → (out = numbered g 1 s.input ↔
        lastLine newline s.input = [] ∧ ∀ j < (lines newline s.input).length, prefixOf linenums (1 + j) = g (1 + j)) := by
    intro linenums
    refine ⟨s.input.length + (lines newline s.input).length + 2, fun fuel hfuel => ?_⟩
    obtain ⟨⟨⟩, s', hrun, c, hout⟩ := wp_false (@catLoop_wp s buf linenums fuel fuel 1 hbad hfull
      (fun l hl => hlines l (List.mem_cons_of_mem _ hl)) (hlines _ List.mem_cons_self) (by omega) (by omega))
    exact ⟨s', _, hrun, hout, fun g hg => numbered_eq_iff hg _ c 1⟩
  have hiff := @lastLine_eq_nil_iff _ _ _ newline s.input
  constructor
  · obtain ⟨n, hn⟩ := hrun false
    refine ⟨n, fun fuel hfuel => ?_⟩
    obtain ⟨s', out, hok, hout, hall⟩ := hn fuel hfuel
    refine ⟨s', out, hok, hout, ?_⟩
    have := hall (fun _ => []) fun _ => rfl
    rw [numbered_nil] at this
    rw [this, hiff]
    exact and_iff_left fun _ _ => rfl
  · obtain ⟨n, hn⟩ := hrun true
    refine ⟨n, fun fuel hfuel => ?_⟩
    obtain ⟨s', out, hok, hout, hall⟩ := hn fuel hfuel
    refine ⟨s', out, hok, hout, ?_⟩
    rw [hall numberField fun i => ?_, hiff]
    · apply and_congr_right
      intro _
      constructor
      · -- the number that an `int` cannot hold
        intro h
        by_contra hlt
        have := h (2 ^ 31 - 1) (by omega)
        exact fieldAt_overflow this
      · intro hlt j hj
        exact fieldAt_eq (by omega) (by omega)
    · obtain ⟨-, -, -, hlen⟩ := intToStr_some (.ofNat i)
      exact hlen.trans (numberField_length i).symm

/-- Two lines, with one letter each. -/
def Cat.twoLetters : St := ⟨fun _ => 0, [97, 10, 98, 10], [], false, false⟩

theorem cat_copies_iff_twoLetters :
    (∃ n, ∀ fuel ≥ n, ∃ s' out, cat fuel 4096 false twoLetters = .ok () s' ∧ s'.out = twoLetters.out ++ out ∧
      (out = twoLetters.input ↔ twoLetters.input = [] ∨ twoLetters.input.getLast? = some newline)) ∧
    ∃ n, ∀ fuel ≥ n, ∃ s' out, cat fuel 4096 true twoLetters = .ok () s' ∧ s'.out = twoLetters.out ++ out ∧
      (out = numbered numberField 1 twoLetters.input ↔
        (twoLetters.input = [] ∨ twoLetters.input.getLast? = some newline) ∧ (lines newline twoLetters.input).length < 2 ^ 31) :=
  cat_copies_iff rfl rfl (by decide) 4096

/-- Behind `a`, which has no newline, comes what the line before left there. -/
theorem cat_writes_stale_byte : ∃ s', cat 8 4096 false ⟨fun _ => 0, [98, 99, 10, 97], [], false, false⟩ = .ok () s' ∧
    s'.out = [98, 99, 10, 97, 99] :=
  ⟨_, rfl, rfl⟩

end Xv6
