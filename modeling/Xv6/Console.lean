import Xv6.CopyOut
import Xv6.KillSleep

/-!
# The lines of a console

`consoleintr` and `consoleread` on one console that stays the current one.  A section under the lock of the console is one step: the
handler has it for a whole character, and a reader until it returns or sleeps.  Beside it stands a line editor over two lists of
characters, those that readers may take and those of the line that is being edited.  The console gives its readers what the editor
gives them (`console_edits_lines`), however often the three indices have wrapped around.
-/

namespace Xv6

open Function (update)
open Ram (NEWLINE)

/-- The input of `struct console`. -/
structure ConsBuf extends Console where
  e : UInt32
  buf : Fin 512 → UInt8

/-- A read that sleeps or has not begun: `n` of `target` bytes are left, and `got` has been copied to the user. -/
structure ConsReader where
  target : Nat
  n : Nat
  got : List UInt8

/-- How a section of `consoleread` ends; a return has the answer, and what the user has got. -/
inductive ConsStop
  | sleep (rd : ConsReader)
  | ret (a0 : Int) (got : List UInt8)

namespace ConsBuf

def INPUT_BUF_SIZE : UInt32 := 512

/-- `C(x)`: control-x. -/
def C (x : Char) : UInt8 := .ofNat (x.toNat - '@'.toNat)

/-- `i % INPUT_BUF_SIZE`. -/
def slot (i : UInt32) : Fin 512 := Fin.ofNat 512 i.toNat

/-- The loop that kills a line; it ends after `e - w` turns. -/
def killLoop : Nat → ConsBuf → ConsBuf
  | 0, x => x
  | fuel + 1, x =>
    if x.e ≠ x.w ∧ x.buf (slot (x.e - 1)) ≠ NEWLINE then killLoop fuel { x with e := x.e - 1 } else x

/-- `consoleintr`, for the characters that do not switch consoles. -/
def consoleintr (c : UInt8) (x : ConsBuf) : ConsBuf :=
  -- `procdump` and `contdump`
  if c = C 'P' ∨ c = C 'O' then x
  else if c = C 'U' then killLoop (x.e - x.w).toNat x
  else if c = C 'H' ∨ c = 0x7f then
    if x.e ≠ x.w then { x with e := x.e - 1 } else x
  else if c ≠ 0 ∧ x.e - x.r < INPUT_BUF_SIZE then
    let c := if c = 13 then NEWLINE else c
    let x := { x with buf := update x.buf (slot x.e) c, e := x.e + 1 }
    if c = NEWLINE ∨ c = C 'D' ∨ x.e - x.r = INPUT_BUF_SIZE then { x with w := x.e } else x
  else x

/-- The loop of `consoleread` with `n` bytes left, from where the reader has the lock up to where it releases it. -/
def consolereadLoop (killed : Bool) (target : Nat) : Nat → List UInt8 → ConsBuf → ConsStop × ConsBuf
  | 0, got, x => (.ret target got, x)
  | n + 1, got, x =>
    if x.r = x.w then
      if killed then (.ret (-1) got, x) else (.sleep ⟨target, n + 1, got⟩, x)
    else
      let c := x.buf (slot x.r)
      let x := { x with r := x.r + 1 }
      if c = C 'D' then
        -- saved for the next time
        if n + 1 < target then (.ret (target - (n + 1)) got, { x with r := x.r - 1 }) else (.ret (target - (n + 1)) got, x)
      else if c = NEWLINE then (.ret (target - n) (got ++ [c]), x)
      else consolereadLoop killed target n (got ++ [c]) x

def consoleread (killed : Bool) (rd : ConsReader) (x : ConsBuf) : ConsStop × ConsBuf :=
  consolereadLoop killed rd.target rd.n rd.got x

end ConsBuf

inductive ConsEv
  -- a character comes in
  | char (c : UInt8)
  -- a call of `consoleread`
  | call (p : Slot) (n : Nat)
  -- the next section of a reader; `killed` is what `killed(myproc())` answers
  | run (p : Slot) (killed : Bool)

/-- A console, or what stands for it, with its readers. -/
structure ConsSys (κ : Type) where
  x : κ
  reader : Slot → Option ConsReader

namespace ConsSys

variable {κ : Type}

/-- One step over given functions of the console, and what a read returns by it. -/
def step (intr : UInt8 → κ → κ) (read : Bool → ConsReader → κ → ConsStop × κ) (s : ConsSys κ) :
    ConsEv → Option (ConsSys κ × Option (Slot × Int × List UInt8))
  | .char c => if c = ConsBuf.C 'T' then none else some ({ s with x := intr c s.x }, none)
  | .call p n =>
    match s.reader p with
    | some _ => none
    | none => if 0 < n then some ({ s with reader := update s.reader p (some ⟨n, n, []⟩) }, none) else none
  | .run p killed =>
    match s.reader p with
    | none => none
    | some rd =>
      match read killed rd s.x with
      | (.sleep rd, x) => some (⟨x, update s.reader p (some rd)⟩, none)
      | (.ret a0 got, x) => some (⟨x, update s.reader p none⟩, some (p, a0, got))

/-- A run, with the results of the reads in the order in which they return. -/
def run (intr : UInt8 → κ → κ) (read : Bool → ConsReader → κ → ConsStop × κ) :
    ConsSys κ → List ConsEv → Option (ConsSys κ × List (Slot × Int × List UInt8))
  | s, [] => some (s, [])
  | s, e :: es =>
    match s.step intr read e with
    | none => none
    | some (s, r) => (run intr read s es).map fun (t, rs) => (t, r.toList ++ rs)

end ConsSys

/-! ### The line editor -/

/-- The characters for the readers, and the line that is being edited. -/
structure LineEditor where
  committed : List UInt8 := []
  line : List UInt8 := []

namespace LineEditor

open ConsBuf (C)

/-- A character is put at the end of the line if there is room; the line is handed over when it is complete or nothing more fits. -/
def insert (c : UInt8) (a : LineEditor) : LineEditor :=
  if a.committed.length + a.line.length < 512 then
    if c = NEWLINE ∨ c = C 'D' ∨ a.committed.length + a.line.length = 511 then ⟨a.committed ++ (a.line ++ [c]), []⟩
    else ⟨a.committed, a.line ++ [c]⟩
  else a

def key (c : UInt8) (a : LineEditor) : LineEditor :=
  if c = 0 ∨ c = C 'P' ∨ c = C 'O' then a
  else if c = C 'U' then { a with line := [] }
  else if c = C 'H' ∨ c = 0x7f then { a with line := a.line.dropLast }
  else a.insert (if c = 13 then NEWLINE else c)

/-- A reader takes the rest of a line, or what there is of it.  A control-D ends the read: it is taken if it is all there is. -/
def read (killed : Bool) (rd : ConsReader) (a : LineEditor) : ConsStop × LineEditor :=
  let bytes := OutCall.lineBytes rd.n a.committed
  let rest := a.committed.drop bytes.length
  let got := rd.got ++ bytes
  if bytes.length = rd.n ∨ bytes.getLast? = some NEWLINE then (.ret got.length got, { a with committed := rest })
  else
    match rest with
    | [] => if killed then (.ret (-1) got, { a with committed := [] })
      else (.sleep ⟨rd.target, rd.n - bytes.length, got⟩, { a with committed := [] })
    | _ :: rest' => (.ret got.length got, { a with committed := if got = [] then rest' else rest })

end LineEditor

/-! ### The ring -/

namespace ConsBuf

variable {x : ConsBuf} {l : List UInt8} {c : UInt8} {a : LineEditor}

theorem add_ofNat_one (i : UInt32) (k : Nat) : i + .ofNat (k + 1) = i + .ofNat k + 1 := by
  rw [UInt32.ofNat_add, ← UInt32.add_assoc]
  rfl

theorem add_one_ofNat (i : UInt32) (k : Nat) : i + 1 + .ofNat k = i + .ofNat (k + 1) := by
  rw [add_ofNat_one, UInt32.add_assoc, UInt32.add_comm 1, ← UInt32.add_assoc]

theorem add_sub_self (i : UInt32) (k : Nat) : i + .ofNat k - i = .ofNat k := by
  rw [UInt32.add_comm, UInt32.add_sub_cancel]

theorem toNat_small {k : Nat} (h : k ≤ 512) : (UInt32.ofNat k).toNat = k :=
  UInt32.toNat_ofNat_of_lt' (Nat.lt_of_le_of_lt h (by decide))

theorem slot_add (i : UInt32) (k : Nat) : (slot (i + .ofNat k)).val = (i.toNat + k) % 512 := by
  simp only [slot, Fin.ofNat, UInt32.toNat_add, UInt32.toNat_ofNat']
  omega

/-- The places of the characters and the one after them are distinct. -/
theorem slot_ne {i : UInt32} {j k : Nat} (hjk : j < k) (hk : k < 512) : slot (i + .ofNat j) ≠ slot (i + .ofNat k) := by
  intro h
  have hval := congrArg Fin.val h
  rw [slot_add, slot_add] at hval
  omega

/-- The characters from `r` to `e`. -/
structure Holds (x : ConsBuf) (l : List UInt8) : Prop where
  e : x.e = x.r + .ofNat l.length
  le : l.length ≤ 512
  chars : ∀ k (h : k < l.length), x.buf (slot (x.r + .ofNat k)) = l[k]

theorem Holds.push (h : x.Holds l) (hl : l.length < 512) (c : UInt8) :
    Holds { x with buf := update x.buf (slot x.e) c, e := x.e + 1 } (l ++ [c]) := by
  constructor
  · rw [List.length_append, List.length_singleton, add_ofNat_one, ← h.e]
  · rw [List.length_append, List.length_singleton]
    omega
  · intro k hk
    rw [List.length_append, List.length_singleton] at hk
    show update x.buf (slot x.e) c (slot (x.r + .ofNat k)) = (l ++ [c])[k]
    by_cases hkl : k < l.length
    · rw [h.e, Function.update_of_ne (slot_ne hkl hl), List.getElem_append_left hkl]
      exact h.chars k hkl
    · obtain rfl : k = l.length := by omega
      rw [h.e, Function.update_self, List.getElem_concat_length rfl]

/-- The last character is the one before `e`. -/
theorem Holds.last (h : x.Holds (l ++ [c])) : x.buf (slot (x.e - 1)) = c ∧ Holds { x with e := x.e - 1 } l := by
  have hlen : (l ++ [c]).length = l.length + 1 := by rw [List.length_append, List.length_singleton]
  have he : x.e - 1 = x.r + .ofNat l.length := by rw [h.e, hlen, add_ofNat_one, UInt32.add_sub_cancel]
  constructor
  · rw [he, h.chars l.length (by omega), List.getElem_concat_length rfl]
  · constructor
    · exact he
    · have := h.le
      omega
    · intro k hk
      have hchar := h.chars k (by omega)
      rwa [List.getElem_append_left hk] at hchar

/-- The first character is the one at `r`. -/
theorem Holds.first (h : x.Holds (c :: l)) : x.buf (slot x.r) = c ∧ Holds { x with r := x.r + 1 } l := by
  constructor
  · have hchar := h.chars 0 (Nat.succ_pos _)
    rwa [show x.r + .ofNat 0 = x.r from UInt32.add_zero _] at hchar
  · constructor
    · rw [h.e, List.length_cons]
      exact (add_one_ofNat ..).symm
    · have := h.le
      rw [List.length_cons] at this
      omega
    · intro k hk
      show x.buf (slot (x.r + 1 + .ofNat k)) = l[k]
      rw [add_one_ofNat]
      exact h.chars (k + 1) (Nat.succ_lt_succ hk)

/-- The console shows what the editor has. -/
structure Shows (x : ConsBuf) (a : LineEditor) : Prop where
  holds : x.Holds (a.committed ++ a.line)
  w : x.w = x.r + .ofNat a.committed.length
  line : NEWLINE ∉ a.line

theorem Shows.length_le (h : x.Shows a) : a.committed.length + a.line.length ≤ 512 := by
  have := h.holds.le
  rwa [List.length_append] at this

theorem Shows.w_sub (h : x.Shows a) : x.w - x.r = .ofNat a.committed.length := by rw [h.w, add_sub_self]

theorem Shows.e_sub (h : x.Shows a) : x.e - x.r = .ofNat (a.committed.length + a.line.length) := by
  rw [h.holds.e, add_sub_self, List.length_append]

theorem Shows.e_eq (h : x.Shows a) : x.e = x.w + .ofNat a.line.length := by
  rw [h.holds.e, h.w, List.length_append, UInt32.ofNat_add, UInt32.add_assoc]

theorem add_eq_self {i : UInt32} {k : Nat} (hk : k ≤ 512) : i + .ofNat k = i ↔ k = 0 := by
  constructor
  · intro h
    have hsub := add_sub_self i k
    rw [h, UInt32.sub_self] at hsub
    rw [← toNat_small hk, ← hsub]
    rfl
  · intro h
    rw [h]
    exact UInt32.add_zero i

theorem Shows.e_eq_w (h : x.Shows a) : x.e = x.w ↔ a.line = [] := by
  have hle := h.length_le
  rw [h.e_eq, add_eq_self (by omega), List.length_eq_zero_iff]

theorem Shows.r_eq_w (h : x.Shows a) : x.r = x.w ↔ a.committed = [] := by
  have hle := h.length_le
  rw [h.w, eq_comm, add_eq_self (by omega), List.length_eq_zero_iff]

/-! ### Characters -/

variable {m : List UInt8}

theorem Shows.erase (h : x.Shows ⟨m, l ++ [c]⟩) : x.buf (slot (x.e - 1)) = c ∧ Shows { x with e := x.e - 1 } ⟨m, l⟩ := by
  have hlast := Holds.last (l := m ++ l) (c := c) (by
    rw [List.append_assoc]
    exact h.holds)
  exact ⟨hlast.1, hlast.2, h.w, fun hl => h.line (List.mem_append_left _ hl)⟩

/-- The whole line is killed: it has no end of a line in it. -/
theorem killLoop_shows {fuel : Nat} (hf : l.length ≤ fuel) (h : x.Shows ⟨m, l⟩) : (killLoop fuel x).Shows ⟨m, []⟩ := by
  induction fuel generalizing x l with
  | zero =>
    obtain rfl := List.length_eq_zero_iff.1 (Nat.le_zero.1 hf)
    exact h
  | succ fuel ih =>
    rw [killLoop]
    rcases List.eq_nil_or_concat l with rfl | ⟨l', c, rfl⟩
    · rw [if_neg fun hne => hne.1 (h.e_eq_w.2 rfl)]
      exact h
    · rw [List.concat_eq_append] at h hf
      have hne : x.e ≠ x.w := fun he => List.append_ne_nil_of_right_ne_nil l' (List.cons_ne_nil c []) (h.e_eq_w.1 he)
      have hc : c ≠ NEWLINE := fun hc => h.line (hc ▸ List.mem_append_right _ List.mem_cons_self)
      rw [if_pos ⟨hne, by rwa [h.erase.1]⟩]
      rw [List.length_append, List.length_singleton] at hf
      exact ih (by omega) h.erase.2

theorem lt_size {k : Nat} (hk : k ≤ 512) : UInt32.ofNat k < INPUT_BUF_SIZE ↔ k < 512 := by
  rw [UInt32.lt_iff_toNat_lt, toNat_small hk]
  rfl

theorem eq_size {k : Nat} (hk : k ≤ 512) : UInt32.ofNat k = INPUT_BUF_SIZE ↔ k = 512 := by
  rw [← UInt32.toNat_inj, toNat_small hk]
  rfl

/-- The default case of the switch. -/
theorem insert_shows (h : x.Shows a) {c : UInt8} (hroom : a.committed.length + a.line.length < 512) :
    Shows (if c = NEWLINE ∨ c = C 'D' ∨ x.e + 1 - x.r = INPUT_BUF_SIZE then
        { x with buf := update x.buf (slot x.e) c, e := x.e + 1, w := x.e + 1 }
      else { x with buf := update x.buf (slot x.e) c, e := x.e + 1 }) (a.insert c) := by
  have hpush := h.holds.push (by rwa [List.length_append]) c
  have hsub : x.e + 1 - x.r = .ofNat (a.committed.length + a.line.length + 1) := by
    rw [h.holds.e, List.length_append, ← add_ofNat_one, add_sub_self]
  have hend_iff : (c = NEWLINE ∨ c = C 'D' ∨ x.e + 1 - x.r = INPUT_BUF_SIZE) ↔
      (c = NEWLINE ∨ c = C 'D' ∨ a.committed.length + a.line.length = 511) := by
    have hsucc : a.committed.length + a.line.length + 1 = 512 ↔ a.committed.length + a.line.length = 511 := by omega
    rw [hsub, eq_size (by omega), hsucc]
  rw [LineEditor.insert, if_pos hroom]
  by_cases hend : c = NEWLINE ∨ c = C 'D' ∨ a.committed.length + a.line.length = 511
  · rw [if_pos (hend_iff.2 hend), if_pos hend]
    constructor
    · rw [List.append_nil, ← List.append_assoc]
      exact ⟨hpush.e, hpush.le, hpush.chars⟩
    · rw [← List.append_assoc]
      exact hpush.e
    · exact List.not_mem_nil
  · rw [if_neg (mt hend_iff.1 hend), if_neg hend]
    constructor
    · rw [← List.append_assoc]
      exact hpush
    · exact h.w
    · intro hmem
      rcases List.mem_append.1 hmem with hmem | hmem
      · exact h.line hmem
      · exact hend (.inl (List.mem_singleton.1 hmem).symm)

/-- Backspace. -/
theorem Shows.erase_line (h : x.Shows a) :
    Shows (if x.e ≠ x.w then { x with e := x.e - 1 } else x) { a with line := a.line.dropLast } := by
  obtain ⟨m, l⟩ := a
  rcases List.eq_nil_or_concat l with rfl | ⟨l', c, rfl⟩
  · rw [if_neg fun hne => hne (h.e_eq_w.2 rfl)]
    exact h
  · rw [List.concat_eq_append] at h ⊢
    have hne : x.e ≠ x.w := fun he => List.append_ne_nil_of_right_ne_nil l' (List.cons_ne_nil c []) (h.e_eq_w.1 he)
    rw [if_pos hne]
    dsimp only
    rw [List.dropLast_concat]
    exact h.erase.2

theorem consoleintr_shows (h : x.Shows a) (c : UInt8) : (consoleintr c x).Shows (a.key c) := by
  unfold consoleintr LineEditor.key
  by_cases hp : c = C 'P' ∨ c = C 'O'
  · rw [if_pos hp, if_pos (.inr hp)]
    exact h
  · rw [if_neg hp]
    by_cases h0 : c = 0
    · subst h0
      rw [if_neg (by decide), if_neg (by decide), if_neg (by simp), if_pos (.inl rfl)]
      exact h
    · have hother : ¬(c = 0 ∨ c = C 'P' ∨ c = C 'O') := fun hc => hc.elim h0 hp
      rw [if_neg hother]
      by_cases hu : c = C 'U'
      · rw [if_pos hu, if_pos hu]
        have hle := h.length_le
        refine killLoop_shows (Nat.le_of_eq ?_) h
        rw [h.e_eq, add_sub_self, toNat_small (by omega)]
      · rw [if_neg hu, if_neg hu]
        by_cases hh : c = C 'H' ∨ c = 0x7f
        · rw [if_pos hh, if_pos hh]
          exact h.erase_line
        · rw [if_neg hh, if_neg hh]
          have hle := h.length_le
          by_cases hroom : a.committed.length + a.line.length < 512
          · have hlt : x.e - x.r < INPUT_BUF_SIZE := by rwa [h.e_sub, lt_size hle]
            rw [if_pos ⟨h0, hlt⟩]
            exact insert_shows h hroom
          · have hlt : ¬x.e - x.r < INPUT_BUF_SIZE := by rwa [h.e_sub, lt_size hle]
            rw [if_neg fun hc => hlt hc.2, LineEditor.insert, if_neg hroom]
            exact h

end ConsBuf

/-! ### Reads -/

namespace LineEditor

open ConsBuf (C)

variable {killed : Bool} {target n : Nat} {got m l : List UInt8} {c : UInt8}

theorem lineBytes_succ (hd : c ≠ C 'D') (hn : c ≠ NEWLINE) : OutCall.lineBytes (n + 1) (c :: m) = c :: OutCall.lineBytes n m := by
  rw [OutCall.lineBytes, if_neg (show ¬c = Ram.CTRLD from hd), if_neg hn]

/-- A character that is not the last of the read. -/
theorem read_cons (hd : c ≠ C 'D') (hn : c ≠ NEWLINE) :
    read killed ⟨target, n + 1, got⟩ ⟨c :: m, l⟩ = read killed ⟨target, n, got ++ [c]⟩ ⟨m, l⟩ := by
  unfold read
  dsimp only
  rw [lineBytes_succ hd hn]
  have hlast : (c :: OutCall.lineBytes n m).getLast? = some NEWLINE ↔ (OutCall.lineBytes n m).getLast? = some NEWLINE := by
    cases OutCall.lineBytes n m with
    | nil => simpa using hn
    | cons b bs => rw [List.getLast?_cons_cons]
  have hgot : got ++ c :: OutCall.lineBytes n m = got ++ [c] ++ OutCall.lineBytes n m := by
    rw [List.append_assoc, List.singleton_append]
  have hdone : ((c :: OutCall.lineBytes n m).length = n + 1 ∨ (c :: OutCall.lineBytes n m).getLast? = some NEWLINE) ↔
      ((OutCall.lineBytes n m).length = n ∨ (OutCall.lineBytes n m).getLast? = some NEWLINE) := by
    rw [hlast, List.length_cons, Nat.add_right_cancel_iff]
  by_cases hend : (OutCall.lineBytes n m).length = n ∨ (OutCall.lineBytes n m).getLast? = some NEWLINE
  · rw [if_pos (hdone.2 hend), if_pos hend, hgot, List.length_cons, List.drop_succ_cons]
  · rw [if_neg (mt hdone.1 hend), if_neg hend, hgot, List.length_cons, List.drop_succ_cons, Nat.add_sub_add_right]

theorem read_zero : read killed ⟨target, 0, got⟩ ⟨m, l⟩ = (.ret got.length got, ⟨m, l⟩) := by
  simp [read, OutCall.lineBytes]

theorem read_nil : read killed ⟨target, n + 1, got⟩ ⟨[], l⟩ =
    (if killed then .ret (-1) got else .sleep ⟨target, n + 1, got⟩, ⟨[], l⟩) := by
  cases killed <;> simp [read, OutCall.lineBytes]

theorem read_ctrlD : read killed ⟨target, n + 1, got⟩ ⟨C 'D' :: m, l⟩ =
    (.ret got.length got, ⟨if got = [] then m else C 'D' :: m, l⟩) := by
  have hbytes : OutCall.lineBytes (n + 1) (C 'D' :: m) = [] := if_pos rfl
  simp [read, hbytes]

theorem read_newline : read killed ⟨target, n + 1, got⟩ ⟨NEWLINE :: m, l⟩ = (.ret (got.length + 1) (got ++ [NEWLINE]), ⟨m, l⟩) := by
  have hbytes : OutCall.lineBytes (n + 1) (NEWLINE :: m) = [NEWLINE] := by
    rw [OutCall.lineBytes, if_neg (by decide), if_pos rfl]
  simp [read, hbytes]

/-- What is known of a read that goes on, and of one that returns: it has got at most one line; if neither the line nor the buffer of the
user is complete, a control-D has ended it, which is the next character. -/
def Answers (target : Nat) (committed : List UInt8) : ConsStop → Prop
  | .sleep rd => rd.n + rd.got.length = rd.target ∧ NEWLINE ∉ rd.got
  | .ret a0 got => (a0 = -1 ∨ a0 = got.length) ∧ NEWLINE ∉ got.dropLast ∧
      (0 < a0 → a0 < target → got.getLast? ≠ some NEWLINE → ∃ m, committed = C 'D' :: m)

theorem read_answers (hn : n + got.length = target) (hgot : NEWLINE ∉ got) :
    Answers target (read killed ⟨target, n, got⟩ ⟨m, l⟩).2.committed (read killed ⟨target, n, got⟩ ⟨m, l⟩).1 := by
  have hinit : NEWLINE ∉ got.dropLast := fun h => hgot (List.mem_of_mem_dropLast h)
  induction n generalizing got m with
  | zero =>
    rw [read_zero]
    exact ⟨.inr rfl, hinit, fun _ hlt => by omega⟩
  | succ n ih =>
    cases m with
    | nil =>
      rw [read_nil]
      cases killed with
      | true => exact ⟨.inl rfl, hinit, fun hpos => absurd hpos (by decide)⟩
      | false => exact ⟨hn, hgot⟩
    | cons c m =>
      by_cases hd : c = C 'D'
      · subst hd
        rw [read_ctrlD]
        refine ⟨.inr rfl, hinit, fun hpos _ _ => ⟨m, if_neg ?_⟩⟩
        intro hnil
        rw [hnil] at hpos
        exact absurd hpos (by decide)
      · by_cases hl : c = NEWLINE
        · subst hl
          rw [read_newline]
          refine ⟨.inr ?_, ?_, fun _ _ hlast => ?_⟩
          · rw [List.length_append, List.length_singleton, Nat.cast_add, Nat.cast_one]
          · rwa [List.dropLast_concat]
          · rw [List.getLast?_concat] at hlast
            exact absurd rfl hlast
        · have hmem : NEWLINE ∉ got ++ [c] := fun h => by
            rcases List.mem_append.1 h with h | h
            · exact hgot h
            · exact hl (List.mem_singleton.1 h).symm
          rw [read_cons hd hl]
          refine ih ?_ hmem fun h => hmem (List.mem_of_mem_dropLast h)
          rw [List.length_append, List.length_singleton]
          omega

/-- The committed characters are only added to. -/
theorem key_committed (c : UInt8) (a : LineEditor) : a.committed <+: (a.key c).committed := by
  unfold key insert
  split_ifs <;> first | exact List.prefix_refl _ | exact List.prefix_append _ _

end LineEditor

namespace ConsBuf

variable {x : ConsBuf} {l : List UInt8} {c : UInt8} {a : LineEditor} {m : List UInt8}

theorem Shows.take (h : x.Shows ⟨c :: m, l⟩) : x.buf (slot x.r) = c ∧ Shows { x with r := x.r + 1 } ⟨m, l⟩ := by
  have hfirst := Holds.first (l := m ++ l) (c := c) h.holds
  refine ⟨hfirst.1, hfirst.2, ?_, h.line⟩
  show x.w = x.r + 1 + .ofNat m.length
  rw [h.w, List.length_cons, add_one_ofNat]

theorem consolereadLoop_shows (h : x.Shows ⟨m, l⟩) (killed : Bool) {target n : Nat} {got : List UInt8} (hn : n + got.length = target) :
    (consolereadLoop killed target n got x).1 = (LineEditor.read killed ⟨target, n, got⟩ ⟨m, l⟩).1 ∧
      (consolereadLoop killed target n got x).2.Shows (LineEditor.read killed ⟨target, n, got⟩ ⟨m, l⟩).2 := by
  induction n generalizing x m got with
  | zero =>
    rw [LineEditor.read_zero, ← hn, Nat.zero_add]
    exact ⟨rfl, h⟩
  | succ n ih =>
    rw [consolereadLoop]
    cases m with
    | nil =>
      rw [if_pos (h.r_eq_w.2 rfl), LineEditor.read_nil]
      split <;> exact ⟨rfl, h⟩
    | cons c m =>
      have hne : x.r ≠ x.w := fun he => List.cons_ne_nil c m (h.r_eq_w.1 he)
      obtain ⟨hc, hnext⟩ := h.take
      rw [if_neg hne]
      dsimp only
      rw [hc]
      by_cases hd : c = C 'D'
      · subst hd
        rw [if_pos rfl, LineEditor.read_ctrlD, show (target : Int) - (n + 1) = got.length by omega]
        by_cases hfirst : got = []
        · have hlt : ¬n + 1 < target := by
            rw [hfirst, List.length_nil] at hn
            omega
          rw [if_neg hlt, if_pos hfirst]
          exact ⟨rfl, hnext⟩
        · have hlt : n + 1 < target := by
            have := List.length_pos_iff.2 hfirst
            omega
          rw [if_pos hlt, if_neg hfirst]
          dsimp only
          rw [UInt32.add_sub_cancel]
          exact ⟨rfl, h⟩
      · rw [if_neg hd]
        by_cases hl : c = NEWLINE
        · subst hl
          rw [if_pos rfl, LineEditor.read_newline, show (target : Int) - n = got.length + 1 by omega]
          exact ⟨rfl, hnext⟩
        · rw [if_neg hl, LineEditor.read_cons hd hl]
          refine ih hnext ?_
          rw [List.length_append, List.length_singleton]
          omega

/-! ### Runs -/

/-- The characters that have been handed over to the readers. -/
def committed (x : ConsBuf) : List UInt8 := (List.range (x.w - x.r).toNat).map fun k => x.buf (slot (x.r + .ofNat k))

theorem Shows.committed_eq (h : x.Shows a) : x.committed = a.committed := by
  have hle := h.length_le
  apply List.ext_getElem
  · rw [committed, List.length_map, List.length_range, h.w_sub, toNat_small (by omega)]
  · intro k hk hk'
    have hchar := h.holds.chars k (by
      rw [List.length_append]
      omega)
    rw [List.getElem_append_left hk'] at hchar
    simp only [committed, List.getElem_map, List.getElem_range]
    exact hchar

/-- What holds of the console in a run: the order of the indices; no character that comes in changes or removes a committed one, and the
keys that edit the line add none; and where a read that is not complete returns something, the next read returns 0. -/
structure Sound (s : ConsSys ConsBuf) : Prop where
  w_le_e : s.x.w - s.x.r ≤ s.x.e - s.x.r
  e_le : s.x.e - s.x.r ≤ INPUT_BUF_SIZE
  keeps : ∀ c, s.x.committed <+: (consoleintr c s.x).committed
  edits : ∀ c, c = C 'U' ∨ c = C 'H' ∨ c = 0x7f → (consoleintr c s.x).committed = s.x.committed
  ctrlD : ∀ p rd killed a0 got x', s.reader p = some rd → consoleread killed rd s.x = (.ret a0 got, x') →
    0 < a0 → a0 < rd.target → got.getLast? ≠ some NEWLINE →
    ∀ killed' n, 0 < n → (consoleread killed' ⟨n, n, []⟩ x').1 = .ret 0 []

/-- The console with its readers shows the editor with the same readers. -/
structure Rel (s : ConsSys ConsBuf) (t : ConsSys LineEditor) : Prop where
  shows : s.x.Shows t.x
  reader : s.reader = t.reader
  reads : ∀ p rd, s.reader p = some rd → rd.n + rd.got.length = rd.target ∧ NEWLINE ∉ rd.got

variable {s : ConsSys ConsBuf} {t : ConsSys LineEditor}

theorem Rel.consoleread (h : Rel s t) {p : Slot} {rd : ConsReader} (hrd : s.reader p = some rd) (killed : Bool) :
    (consoleread killed rd s.x).1 = (LineEditor.read killed rd t.x).1 ∧
      (ConsBuf.consoleread killed rd s.x).2.Shows (LineEditor.read killed rd t.x).2 ∧
      LineEditor.Answers rd.target (LineEditor.read killed rd t.x).2.committed (LineEditor.read killed rd t.x).1 := by
  obtain ⟨hn, hgot⟩ := h.reads p rd hrd
  have hloop := consolereadLoop_shows h.shows killed hn
  exact ⟨hloop.1, hloop.2, LineEditor.read_answers hn hgot⟩

theorem Rel.sound (h : Rel s t) : Sound s where
  w_le_e := by
    have hle := h.shows.length_le
    rw [h.shows.w_sub, h.shows.e_sub, UInt32.le_iff_toNat_le, toNat_small (by omega), toNat_small (by omega)]
    omega
  e_le := by
    have hle := h.shows.length_le
    rw [h.shows.e_sub, UInt32.le_iff_toNat_le, toNat_small (by omega)]
    exact hle
  keeps c := by
    rw [h.shows.committed_eq, (consoleintr_shows h.shows c).committed_eq]
    exact LineEditor.key_committed c t.x
  edits c hc := by
    rw [h.shows.committed_eq, (consoleintr_shows h.shows c).committed_eq]
    rcases hc with rfl | rfl | rfl <;> rfl
  ctrlD p rd killed a0 got x' hrd hread hpos hlt hlast killed' n hn := by
    obtain ⟨hstop, hshows, hans⟩ := h.consoleread hrd killed
    rw [hread] at hstop hshows
    rw [← hstop] at hans
    obtain ⟨m, hm⟩ := hans.2.2 hpos hlt hlast
    obtain ⟨n, rfl⟩ := Nat.exists_eq_succ_of_ne_zero (Nat.ne_of_gt hn)
    generalize LineEditor.read killed rd t.x = r at hshows hm
    obtain ⟨stop, committed, line⟩ := r
    dsimp only at hshows hm
    subst hm
    have hnext := (consolereadLoop_shows hshows killed' (show n + 1 + ([] : List UInt8).length = n + 1 from rfl)).1
    rw [LineEditor.read_ctrlD] at hnext
    exact hnext

/-- What a read has returned is its answer, with one line at most. -/
def OneLine (r : Slot × Int × List UInt8) : Prop := (r.2.1 = -1 ∨ r.2.1 = r.2.2.length) ∧ NEWLINE ∉ r.2.2.dropLast

/-- A reader sleeps again or begins. -/
theorem Rel.setReader (h : Rel s t) {x : ConsBuf} {a : LineEditor} (hx : x.Shows a) {p : Slot} {rd : Option ConsReader}
    (hrd : ∀ rd', rd = some rd' → rd'.n + rd'.got.length = rd'.target ∧ NEWLINE ∉ rd'.got) :
    Rel ⟨x, update s.reader p rd⟩ ⟨a, update t.reader p rd⟩ := by
  refine ⟨hx, by rw [h.reader], fun q rd' hq => ?_⟩
  dsimp only at hq
  by_cases hqp : q = p
  · subst hqp
    rw [Function.update_self] at hq
    exact hrd rd' hq
  · rw [Function.update_of_ne hqp] at hq
    exact h.reads q rd' hq

/-- A step of the console is one of the editor, with the same result. -/
theorem Rel.step (h : Rel s t) (e : ConsEv) :
    (s.step consoleintr ConsBuf.consoleread e = none ∧ t.step LineEditor.key LineEditor.read e = none) ∨
    ∃ s' t' r, s.step consoleintr ConsBuf.consoleread e = some (s', r) ∧ t.step LineEditor.key LineEditor.read e = some (t', r) ∧
      Rel s' t' ∧ ∀ x ∈ r, OneLine x := by
  cases e with
  | char c =>
    simp only [ConsSys.step]
    by_cases hc : c = C 'T'
    · exact .inl ⟨if_pos hc, if_pos hc⟩
    · exact .inr ⟨_, _, none, if_neg hc, if_neg hc, ⟨consoleintr_shows h.shows c, h.reader, h.reads⟩, fun _ hx => by cases hx⟩
  | call p n =>
    simp only [ConsSys.step]
    rw [← h.reader]
    cases hp : s.reader p with
    | some rd => exact .inl ⟨rfl, rfl⟩
    | none =>
      dsimp only
      by_cases hn : 0 < n
      · refine .inr ⟨_, _, none, if_pos hn, if_pos hn, ?_, fun _ hx => by cases hx⟩
        refine ⟨h.shows, rfl, (h.setReader h.shows fun rd' hrd => ?_).reads⟩
        obtain rfl := Option.some.inj hrd
        exact ⟨Nat.add_zero n, List.not_mem_nil⟩
      · exact .inl ⟨if_neg hn, if_neg hn⟩
  | run p killed =>
    simp only [ConsSys.step]
    rw [← h.reader]
    cases hp : s.reader p with
    | none => exact .inl ⟨rfl, rfl⟩
    | some rd =>
      dsimp only
      obtain ⟨hstop, hshows, hans⟩ := h.consoleread hp killed
      generalize ConsBuf.consoleread killed rd s.x = r at hstop hshows
      generalize LineEditor.read killed rd t.x = r' at hstop hshows hans
      obtain ⟨stop, x⟩ := r
      obtain ⟨stop', a⟩ := r'
      dsimp only at hstop hshows hans
      subst hstop
      cases stop with
      | sleep rd' =>
        refine .inr ⟨_, _, none, rfl, rfl, ⟨hshows, rfl, (h.setReader hshows fun rd'' hrd => ?_).reads⟩, fun _ hx => by cases hx⟩
        obtain rfl := Option.some.inj hrd
        exact hans
      | ret a0 got =>
        refine .inr ⟨_, _, some (p, a0, got), rfl, rfl, ⟨hshows, rfl, (h.setReader hshows fun rd'' hrd => by cases hrd).reads⟩, ?_⟩
        intro y hy
        obtain rfl := Option.some.inj hy
        exact ⟨hans.1, hans.2.1⟩

/-- A run of the console is one of the editor. -/
theorem Rel.run (h : Rel s t) (es : List ConsEv) :
    (s.run consoleintr ConsBuf.consoleread es = none ∧ t.run LineEditor.key LineEditor.read es = none) ∨
    ∃ s' t' rs, s.run consoleintr ConsBuf.consoleread es = some (s', rs) ∧ t.run LineEditor.key LineEditor.read es = some (t', rs) ∧
      Rel s' t' ∧ ∀ x ∈ rs, OneLine x := by
  induction es generalizing s t with
  | nil => exact .inr ⟨s, t, [], rfl, rfl, h, fun _ hx => by cases hx⟩
  | cons e es ih =>
    simp only [ConsSys.run]
    rcases h.step e with ⟨hs, ht⟩ | ⟨s', t', r, hs, ht, hrel, hone⟩
    · rw [hs, ht]
      exact .inl ⟨rfl, rfl⟩
    · rw [hs, ht]
      dsimp only
      rcases ih hrel with ⟨hs', ht'⟩ | ⟨s'', t'', rs, hs', ht', hrel', hones⟩
      · rw [hs', ht']
        exact .inl ⟨rfl, rfl⟩
      · rw [hs', ht']
        refine .inr ⟨s'', t'', r.toList ++ rs, rfl, rfl, hrel', fun x hx => ?_⟩
        rcases List.mem_append.1 hx with hx | hx
        · exact hone x (Option.mem_toList.1 hx)
        · exact hones x hx

end ConsBuf

open ConsBuf

/-- Nothing has come in and nobody reads. -/
def ConsSys.boot {κ : Type} (x : κ) : ConsSys κ := ⟨x, fun _ => none⟩

/-- The console gives its readers what the line editor gives them, in every run, whatever the order of the characters and of the reads:
the results are the same, and each is one line at most.  All along, the console is sound. -/
theorem console_edits_lines (buf : Fin 512 → UInt8) (es : List ConsEv) :
    ((ConsSys.boot ⟨⟨0, 0⟩, 0, buf⟩).run consoleintr consoleread es).map Prod.snd =
      ((ConsSys.boot {}).run LineEditor.key LineEditor.read es).map Prod.snd ∧
    ∀ s rs, (ConsSys.boot ⟨⟨0, 0⟩, 0, buf⟩).run consoleintr consoleread es = some (s, rs) → ConsBuf.Sound s ∧ ∀ r ∈ rs, OneLine r := by
  have hboot : Rel (ConsSys.boot ⟨⟨0, 0⟩, 0, buf⟩) (ConsSys.boot {}) := by
    refine ⟨⟨⟨rfl, by decide, fun k hk => absurd hk (Nat.not_lt_zero k)⟩, rfl, List.not_mem_nil⟩, rfl, fun _ _ hrd => by cases hrd⟩
  rcases hboot.run es with ⟨hs, ht⟩ | ⟨s', t', rs, hs, ht, hrel, hones⟩
  · rw [hs, ht]
    exact ⟨rfl, fun _ _ h => by cases h⟩
  · rw [hs, ht]
    refine ⟨rfl, fun s rs' h => ?_⟩
    obtain ⟨rfl, rfl⟩ := Prod.mk.inj (Option.some.inj h)
    exact ⟨hrel.sound, hones⟩

end Xv6
