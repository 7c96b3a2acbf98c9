import Xv6.CopyBytes
import Xv6.PipeRead
import Xv6.ProcReap
import Xv6.ProcSleep

/-!
# Names of processes

`p->name` is printed with `%s`, which reads up to a null.  `userinit`, `fork` and `exec` write it with `safestrcpy`, which ends what it
writes with one, and `freeproc` sets its first byte; but `sys_sname` copies 16 bytes of the user's as they are, up to the first one
that is not mapped.  The names have a null as long as each `sname` copies one, or leaves one behind what it copies
(`names_terminated`); `sname_terminated_iff` says that no other `sname` leaves a name with a null.
-/

namespace Xv6

open Function (update)
open PipeBuf (userByte)

/-- The bytes from `p->name` on; the field has the first 16 of them. -/
abbrev NameField := Nat → UInt8

/-- `sizeof(p->name)`. -/
def NAMESIZE : Nat := 16

namespace NameField

/-- The loop of `safestrcpy` at byte `i`, with the value `n` of the argument. -/
def safestrcpyLoop (t : Nat → UInt8) : Nat → Nat → NameField → NameField
  | n + 2, i, s =>
    let s := update s i (t i)
    if t i ≠ 0 then safestrcpyLoop t (n + 1) (i + 1) s else update s (i + 1) 0
  | _, i, s => update s i 0

def safestrcpy (s : NameField) (t : Nat → UInt8) (n : Int) : NameField := if n ≤ 0 then s else safestrcpyLoop t n.toNat 0 s

/-- `memmove` of `n` bytes from `off` of a page to byte `i`. -/
def memmove (m : Ram) (pa : Page) : Nat → Nat → Nat → NameField → NameField
  | 0, _, _, s => s
  | n + 1, off, i, s => memmove m pa n (off + 1) (i + 1) (update s i (m pa off))

/-- The loop of `copyin` with byte `i` for `dst`. -/
def copyinLoop (t : PageTable) (m : Ram) : Nat → Nat → Nat → Nat → NameField → Bool × NameField
  | 0, _, _, _, s => (true, s)
  | fuel + 1, i, srcva, len, s =>
    if len = 0 then (true, s)
    else
      let va0 := PGROUNDDOWN srcva
      match Mem.walkaddr t va0 with
      | none => (false, s)
      | some pa0 =>
        let n := min (PGSIZE - (srcva - va0)) len
        copyinLoop t m fuel (i + n) ((va0 + PGSIZE) % 2 ^ 64) (len - n) (memmove m pa0 n (srcva - va0) i s)

/-- The answer is `false` for -1. -/
def copyin (t : PageTable) (m : Ram) (s : NameField) (srcva : Nat) (len : Nat) : Bool × NameField := copyinLoop t m len 0 srcva len s

/-- `sys_sname` of a process with this page table and memory. -/
def sname (t : PageTable) (m : Ram) (name_p : UInt64) (s : NameField) : Int × NameField :=
  match copyin t m s name_p.toNat 16 with
  | (false, s) => (-1, s)
  | (true, s) => (0, s)

/-- A string of the kernel's, with its null. -/
def str (bs : List UInt8) (i : Nat) : UInt8 := bs[i]?.getD 0

/-- The loop of `exec` over the path, which is at `s`: what is behind the last slash. -/
def lastLoop (last : List UInt8) : List UInt8 → List UInt8
  | [] => last
  | c :: s => if c = 0 then last else lastLoop (if c = 0x2f then s else last) s

/-- What `exec` does with the name. -/
def exec (path : List UInt8) (s : NameField) : NameField := safestrcpy s (str (lastLoop path path)) NAMESIZE

/-- `"initcode"`. -/
def initcode : List UInt8 := [0x69, 0x6e, 0x69, 0x74, 0x63, 0x6f, 0x64, 0x65]

/-- The loop of `printf` for `%s` at byte `i`, with `n` bytes of the field left; `none` if it gets to the end of the field. -/
def printLoop (s : NameField) : Nat → Nat → Option (List UInt8)
  | 0, _ => none
  | n + 1, i => if s i = 0 then some [] else (printLoop s n (i + 1)).map (s i :: ·)

def Terminated (s : NameField) : Prop := ∃ i < NAMESIZE, s i = 0

instance (s : NameField) : Decidable s.Terminated := inferInstanceAs (Decidable (∃ i < NAMESIZE, s i = 0))

/-! ### Strings of the kernel -/

variable {s : NameField} {t : PageTable} {m : Ram}

/-- There is a null among the bytes that are written, and no other byte changes. -/
theorem safestrcpyLoop_spec (f : Nat → UInt8) {n : Nat} (hn : 0 < n) (i : Nat) (s : NameField) :
    (∃ k < n, safestrcpyLoop f n i s (i + k) = 0) ∧ ∀ j, j < i ∨ i + n ≤ j → safestrcpyLoop f n i s j = s j := by
  induction n generalizing i s with
  | zero => cases hn
  | succ n ih =>
    cases n with
    | zero =>
      rw [safestrcpyLoop]
      · exact ⟨⟨0, hn, Function.update_self ..⟩, fun j hj => Function.update_of_ne (by omega) ..⟩
      · nofun
    | succ n =>
      rw [safestrcpyLoop]
      by_cases hf : f i ≠ 0
      · rw [if_pos hf]
        obtain ⟨⟨k, hk, hzero⟩, hframe⟩ := ih (Nat.succ_pos n) (i + 1) (update s i (f i))
        refine ⟨⟨k + 1, Nat.succ_lt_succ hk, ?_⟩, fun j hj => ?_⟩
        · rw [show i + (k + 1) = i + 1 + k by omega, hzero]
        · rw [hframe j (by omega), Function.update_of_ne (by omega)]
      · rw [if_neg hf]
        refine ⟨⟨1, by omega, Function.update_self ..⟩, fun j hj => ?_⟩
        rw [Function.update_of_ne (by omega), Function.update_of_ne (by omega)]

theorem safestrcpy_terminated (s : NameField) (f : Nat → UInt8) : (safestrcpy s f NAMESIZE).Terminated := by
  obtain ⟨⟨k, hk, hzero⟩, -⟩ := safestrcpyLoop_spec f (show 0 < NAMESIZE by decide) 0 s
  rw [Nat.zero_add] at hzero
  exact ⟨k, hk, hzero⟩

/-- `safestrcpy` stays inside of the field. -/
theorem safestrcpy_outside (s : NameField) (f : Nat → UInt8) {j : Nat} (hj : NAMESIZE ≤ j) : safestrcpy s f NAMESIZE j = s j :=
  (safestrcpyLoop_spec f (show 0 < NAMESIZE by decide) 0 s).2 j (.inr (by rwa [Nat.zero_add]))

theorem printLoop_isSome (s : NameField) (n i : Nat) : (printLoop s n i).isSome ↔ ∃ k < n, s (i + k) = 0 := by
  induction n generalizing i with
  | zero => simp [printLoop]
  | succ n ih =>
    rw [printLoop]
    by_cases hs : s i = 0
    · rw [if_pos hs]
      exact iff_of_true rfl ⟨0, Nat.succ_pos n, hs⟩
    · rw [if_neg hs, Option.isSome_map, ih]
      constructor
      · rintro ⟨k, hk, hzero⟩
        exact ⟨k + 1, Nat.succ_lt_succ hk, by rwa [show i + (k + 1) = i + 1 + k by omega]⟩
      · rintro ⟨k, hk, hzero⟩
        cases k with
        | zero => exact absurd hzero hs
        | succ k => exact ⟨k, Nat.lt_of_succ_lt_succ hk, by rwa [show i + 1 + k = i + (k + 1) by omega]⟩

/-- `%s` stays inside of the field if and only if there is a null in it. -/
theorem printLoop_iff (s : NameField) : (printLoop s NAMESIZE 0).isSome ↔ s.Terminated := by
  rw [printLoop_isSome]
  simp only [Nat.zero_add]
  rfl

/-! ### Strings of the user -/

/-- The bytes of the user's from `va` on, at most `n` and up to the first one that is not mapped. -/
def userBytes (t : PageTable) (m : Ram) : Nat → Nat → List UInt8
  | _, 0 => []
  | va, n + 1 =>
    match userByte t m va with
    | none => []
    | some b => b :: userBytes t m (va + 1) n

/-- The bytes `bs` from byte `i` on. -/
def splice (s : NameField) (i : Nat) (bs : List UInt8) : NameField := fun j => if i ≤ j then bs[j - i]?.getD (s j) else s j

theorem splice_nil (s : NameField) (i : Nat) : splice s i [] = s := by
  funext j
  simp [splice]

theorem splice_cons (s : NameField) (i : Nat) (b : UInt8) (bs : List UInt8) :
    splice s i (b :: bs) = splice (update s i b) (i + 1) bs := by
  funext j
  unfold splice
  by_cases hlt : j < i
  · rw [if_neg (by omega), if_neg (by omega), Function.update_of_ne (by omega)]
  · by_cases heq : j = i
    · subst heq
      rw [if_pos (Nat.le_refl j), if_neg (by omega), Nat.sub_self, Function.update_self]
      rfl
    · rw [if_pos (by omega), if_pos (by omega), Function.update_of_ne heq, show j - i = j - (i + 1) + 1 by omega,
        List.getElem?_cons_succ]

theorem splice_append (s : NameField) (i : Nat) (xs ys : List UInt8) :
    splice s i (xs ++ ys) = splice (splice s i xs) (i + xs.length) ys := by
  induction xs generalizing s i with
  | nil => rw [List.nil_append, splice_nil, List.length_nil, Nat.add_zero]
  | cons x xs ih =>
    rw [List.cons_append, splice_cons, ih, splice_cons, List.length_cons, show i + 1 + xs.length = i + (xs.length + 1) by omega]

theorem userBytes_length_le (t : PageTable) (m : Ram) (va n : Nat) : (userBytes t m va n).length ≤ n := by
  induction n generalizing va with
  | zero => exact Nat.le_refl _
  | succ n ih =>
    rw [userBytes]
    split
    · exact Nat.zero_le _
    · exact Nat.succ_le_succ (ih _)

/-- The bytes of one page. -/
theorem userBytes_page {va n : Nat} {pa : Page} (hw : Mem.walkaddr t (PGROUNDDOWN va) = some pa) (hn : va % PGSIZE + n ≤ PGSIZE)
    (r : Nat) : userBytes t m va (n + r) = (List.range' (va % PGSIZE) n).map (m pa) ++ userBytes t m (va + n) r := by
  induction n generalizing va with
  | zero => simp
  | succ n ih =>
    rw [show n + 1 + r = n + r + 1 by omega, userBytes, userByte, hw, List.range'_succ, List.map_cons, List.cons_append]
    dsimp only
    cases n with
    | zero => rw [Nat.zero_add, Nat.zero_add, List.range'_zero, List.map_nil, List.nil_append]
    | succ n =>
      have hmod : (va + 1) % PGSIZE = va % PGSIZE + 1 := by
        simp only [PGSIZE] at hn ⊢
        omega
      have hpage : PGROUNDDOWN (va + 1) = PGROUNDDOWN va := by
        simp only [PGROUNDDOWN, PGSIZE] at hn ⊢
        omega
      rw [ih (by rw [hpage, hw]) (by omega), hmod, show va + 1 + (n + 1) = va + (n + 1 + 1) by omega]

theorem memmove_eq (m : Ram) (pa : Page) (n off i : Nat) (s : NameField) :
    memmove m pa n off i s = splice s i ((List.range' off n).map (m pa)) := by
  induction n generalizing off i s with
  | zero => rw [memmove, List.range'_zero, List.map_nil, splice_nil]
  | succ n ih => rw [memmove, ih, List.range'_succ, List.map_cons, splice_cons]

/-- `copyin` copies the bytes that are mapped, and answers whether these are all. -/
theorem copyinLoop_eq {fuel len : Nat} (hf : len ≤ fuel) {va : Nat} (hva : va < 2 ^ 64) (i : Nat) (s : NameField) :
    copyinLoop t m fuel i va len s =
      (decide ((userBytes t m va len).length = len), splice s i (userBytes t m va len)) := by
  induction fuel generalizing len va i s with
  | zero =>
    obtain rfl := Nat.le_zero.1 hf
    rw [copyinLoop, userBytes, splice_nil]
    rfl
  | succ fuel ih =>
    rw [copyinLoop]
    cases len with
    | zero =>
      rw [if_pos rfl, userBytes, splice_nil]
      rfl
    | succ len =>
      rw [if_neg (Nat.succ_ne_zero len)]
      dsimp only
      cases hw : Mem.walkaddr t (PGROUNDDOWN va) with
      | none =>
        rw [userBytes, userByte, hw]
        dsimp only
        rw [splice_nil]
        rfl
      | some pa =>
        dsimp only
        have hlt := Ram.walkaddr_lt hw
        have hmod : va % PGSIZE < PGSIZE := Nat.mod_lt va (by decide)
        rw [Ram.sub_pgrounddown]
        set n := min (PGSIZE - va % PGSIZE) (len + 1) with hn
        have hbytes := userBytes_page (m := m) hw (show va % PGSIZE + n ≤ PGSIZE by omega) (len + 1 - n)
        rw [show n + (len + 1 - n) = len + 1 by omega] at hbytes
        have hlen : ((List.range' (va % PGSIZE) n).map (m pa)).length = n := by rw [List.length_map, List.length_range']
        rw [hbytes, splice_append, hlen, List.length_append, hlen, memmove_eq]
        by_cases hlast : len + 1 - n = 0
        · rw [hlast, userBytes, splice_nil, show n = len + 1 by omega]
          cases fuel with
          | zero => simp [copyinLoop]
          | succ fuel => simp [copyinLoop]
        · -- the next byte is the first one of the next page
          have hnext : (PGROUNDDOWN va + PGSIZE) % 2 ^ 64 = va + n := by
            simp only [PGROUNDDOWN, PGSIZE, MAXVA] at hlt hn hlast ⊢
            omega
          have hsum : va + n < 2 ^ 64 := by
            simp only [PGSIZE, MAXVA] at hlt hn
            omega
          rw [hnext, ih (by omega) hsum]
          exact Prod.ext (decide_eq_decide.2 (by omega)) rfl

/-- A null is among the bytes that are copied, or behind them in the old name. -/
def EndsIn (bs : List UInt8) (s : NameField) : Prop := 0 ∈ bs ∨ ∃ i < NAMESIZE, bs.length ≤ i ∧ s i = 0

instance (bs : List UInt8) (s : NameField) : Decidable (EndsIn bs s) :=
  inferInstanceAs (Decidable (0 ∈ bs ∨ ∃ i < NAMESIZE, bs.length ≤ i ∧ s i = 0))

theorem splice_terminated_iff {bs : List UInt8} (hlen : bs.length ≤ NAMESIZE) (s : NameField) :
    (splice s 0 bs).Terminated ↔ EndsIn bs s := by
  have happly : ∀ j, splice s 0 bs j = bs[j]?.getD (s j) := fun j => if_pos (Nat.zero_le j)
  constructor
  · rintro ⟨i, hi, hzero⟩
    rw [happly] at hzero
    by_cases hin : i < bs.length
    · rw [List.getElem?_eq_getElem hin, Option.getD_some] at hzero
      exact .inl (hzero ▸ List.getElem_mem hin)
    · rw [List.getElem?_eq_none (Nat.le_of_not_lt hin), Option.getD_none] at hzero
      exact .inr ⟨i, hi, Nat.le_of_not_lt hin, hzero⟩
  · rintro (hmem | ⟨i, hi, hge, hzero⟩)
    · obtain ⟨i, hin, hzero⟩ := List.getElem_of_mem hmem
      refine ⟨i, Nat.lt_of_lt_of_le hin hlen, ?_⟩
      rw [happly, List.getElem?_eq_getElem hin, Option.getD_some, hzero]
    · refine ⟨i, hi, ?_⟩
      rw [happly, List.getElem?_eq_none hge, Option.getD_none, hzero]

theorem sname_snd (t : PageTable) (m : Ram) (name_p : UInt64) (s : NameField) :
    (sname t m name_p s).2 = splice s 0 (userBytes t m name_p.toNat NAMESIZE) := by
  have hcopy : (copyin t m s name_p.toNat 16).2 = splice s 0 (userBytes t m name_p.toNat NAMESIZE) :=
    congrArg Prod.snd (copyinLoop_eq (Nat.le_refl _) name_p.toNat_lt 0 s)
  rw [← hcopy, sname]
  split <;> rename_i h <;> rw [h]

/-- The name that `sname` leaves. -/
theorem sname_terminated_iff (t : PageTable) (m : Ram) (name_p : UInt64) (s : NameField) :
    (sname t m name_p s).2.Terminated ↔ EndsIn (userBytes t m name_p.toNat NAMESIZE) s := by
  rw [sname_snd]
  exact splice_terminated_iff (userBytes_length_le ..) s

/-- `sname` stays inside of the field. -/
theorem sname_outside (t : PageTable) (m : Ram) (name_p : UInt64) (s : NameField) {j : Nat} (hj : NAMESIZE ≤ j) :
    (sname t m name_p s).2 j = s j := by
  have hlen := userBytes_length_le t m name_p.toNat NAMESIZE
  rw [sname_snd, splice, if_pos (Nat.zero_le j), List.getElem?_eq_none (by omega), Option.getD_none]

end NameField

/-! ### Runs -/

open NameField

variable {L : Type} [DecidableEq L]

/-- A section of `proc.c`, or one of the two calls by which a process changes its name.  `found` says whether `exec` comes so far; the
memory of the process is as it is when it calls `sname`. -/
inductive NameEv (L : Type)
  | sys (e : Ev L)
  | exec (p : Slot) (path : List UInt8) (found : Bool)
  | sname (p : Slot) (t : PageTable) (m : Ram) (name_p : UInt64)

/-- What the sections of `proc.c` do to the names. -/
def Sys.names (s : Sys L) (e : Ev L) (x : Slot → NameField) : Slot → NameField :=
  match e with
  | .next t =>
    match s.point t, t with
    -- `fork` and `userinit`
    | some (.listed _ _ np), some p => update x np (safestrcpy (x np) (x p) NAMESIZE)
    | some (.listed _ _ np), none => update x np (safestrcpy (x np) (str initcode) NAMESIZE)
    -- `freeproc`, called by `wait` on a zombie
    | some (.scan _ i _), some p =>
      if h : i < NPROC then
        let q : Slot := ⟨i, h⟩
        if (s.proc q).parent = some p ∧ (s.proc q).state = .zombie then update x q (update (x q) 0 0) else x
      else x
    | _, _ => x
  | .fail t =>
    match s.point t with
    -- `freeproc`, called by `fork`
    | some (.listed _ _ np) => update x np (update (x np) 0 0)
    | _ => x
  | _ => x

def nameStep [Fintype L] (y : Sys L × (Slot → NameField)) : NameEv L → Option (Except String (Sys L × (Slot → NameField)))
  | .sys e => Lts.histStep Sys.step Sys.names y e
  | .exec p path found =>
    if y.1.AtRun p then some (.ok (y.1, if found then update y.2 p (NameField.exec path (y.2 p)) else y.2)) else none
  | .sname p t m name_p => if y.1.AtRun p then some (.ok (y.1, update y.2 p (NameField.sname t m name_p (y.2 p)).2)) else none

/-- The runs of the kernel, with the names of the processes. -/
def nameLts (L : Type) [DecidableEq L] [Fintype L] : Lts (Sys L × (Slot → NameField)) (NameEv L) :=
  .ofFun (· = (procinit L, fun _ _ => 0)) nameStep

/-- An `sname` copies a null, or there is one behind what it copies. -/
def NameEnds (y : Sys L × (Slot → NameField)) : NameEv L → Prop
  | .sname p t m name_p => EndsIn (userBytes t m name_p.toNat NAMESIZE) (y.2 p)
  | _ => True

omit [DecidableEq L] in
/-- A section of `proc.c` changes at most one name, which has a null then. -/
theorem Sys.names_cases (s : Sys L) (e : Ev L) (x : Slot → NameField) :
    s.names e x = x ∨ ∃ q y, s.names e x = update x q y ∧ y.Terminated ∧ ∀ j, NAMESIZE ≤ j → y j = x q j := by
  have hcopy : ∀ q f, ∃ q' y, update x q (safestrcpy (x q) f NAMESIZE) = update x q' y ∧ y.Terminated ∧
      ∀ j, NAMESIZE ≤ j → y j = x q' j := fun q f =>
    ⟨q, _, rfl, safestrcpy_terminated _ f, fun j hj => safestrcpy_outside _ f hj⟩
  have hfree : ∀ q, ∃ q' y, update x q (update (x q) 0 0) = update x q' y ∧ y.Terminated ∧ ∀ j, NAMESIZE ≤ j → y j = x q' j :=
    fun q => ⟨q, _, rfl, ⟨0, by decide, Function.update_self ..⟩, fun j hj => by
      rw [NAMESIZE] at hj
      exact Function.update_of_ne (by omega) ..⟩
  cases e with
  | next t =>
    unfold Sys.names
    dsimp only
    split
    · exact .inr (hcopy _ _)
    · exact .inr (hcopy _ _)
    · split
      · split
        · exact .inr (hfree _)
        · exact .inl rfl
      · exact .inl rfl
    · exact .inl rfl
  | fail t =>
    unfold Sys.names
    dsimp only
    split
    · exact .inr (hfree _)
    · exact .inl rfl
  | pop | switch | call | tick => exact .inl rfl

/-- What a step does to the names: it changes at most one of them, in the field. -/
theorem nameStep_cases [Fintype L] {y z : Sys L × (Slot → NameField)} {e : NameEv L} (h : nameStep y e = some (.ok z)) :
    z.2 = y.2 ∨ ∃ q n, z.2 = update y.2 q n ∧ (NameEnds y e → n.Terminated) ∧ ∀ j, NAMESIZE ≤ j → n j = y.2 q j := by
  cases e with
  | sys e =>
    obtain ⟨-, hx⟩ := Lts.histStep_ok h
    rw [hx]
    exact (Sys.names_cases y.1 e y.2).imp_right fun ⟨q, n, hn, hend, hout⟩ => ⟨q, n, hn, fun _ => hend, hout⟩
  | exec p path found =>
    rw [nameStep] at h
    split at h
    · cases h
      cases found with
      | false => exact .inl rfl
      | true => exact .inr ⟨p, _, rfl, fun _ => safestrcpy_terminated .., fun j hj => safestrcpy_outside _ _ hj⟩
    · cases h
  | sname p t m name_p =>
    rw [nameStep] at h
    split at h
    · cases h
      exact .inr ⟨p, _, rfl, (sname_terminated_iff t m name_p (y.2 p)).2, fun j hj => sname_outside t m name_p _ hj⟩
    · cases h

/-- In every run in which each `sname` copies a null or leaves one behind what it copies, every name has a null, and `%s` stays inside
of the field. -/
theorem names_terminated [Fintype L] {s : Sys L} {x : Slot → NameField} (h : ((nameLts L).guard NameEnds).Reachable (s, x))
    (p : Slot) : (x p).Terminated ∧ (printLoop (x p) NAMESIZE 0).isSome := by
  suffices hall : ∀ p, (x p).Terminated from ⟨hall p, (printLoop_iff (x p)).2 (hall p)⟩
  refine h.invariant (I := fun y => ∀ p, (y.2 p).Terminated) ?_ ?_
  · rintro y rfl p
    exact ⟨0, by decide, rfl⟩
  · rintro y e z hy ⟨hends, hstep⟩ p
    rcases nameStep_cases hstep with hz | ⟨q, n, hz, hn, -⟩
    · rw [hz]
      exact hy p
    · rw [hz]
      by_cases hpq : p = q
      · rw [hpq, Function.update_self]
        exact hn hends
      · rw [Function.update_of_ne hpq]
        exact hy p

/-- The first process starts, calls `exec("/init")`, and gives itself the name at 0, where it has a page with the bytes `m`. -/
def nameRun (m : Ram) : List (NameEv Unit) :=
  List.replicate 6 (.sys (.next none)) ++ [.sys (.pop ⟨0, NCPU_pos⟩ contRoot), .sys (.switch ⟨0, NCPU_pos⟩),
    .exec ⟨0, NPROC_pos⟩ [0x2f, 0x69, 0x6e, 0x69, 0x74] true, .sname ⟨0, NPROC_pos⟩ CopyBytes.onePage m 0]

/-- It makes a child. -/
def childRun (m : Ram) : List (NameEv Unit) :=
  nameRun m ++ .sys (.call ⟨0, NPROC_pos⟩ .fork) :: List.replicate 8 (.sys (.next (some ⟨0, NPROC_pos⟩)))

/-- A test for `NameEnds`. -/
def nameEndsTest (y : Sys Unit × (Slot → NameField)) : NameEv Unit → Bool
  | .sname p t m name_p => decide (EndsIn (userBytes t m name_p.toNat NAMESIZE) (y.2 p))
  | _ => true

theorem nameEnds_of_test (y : Sys Unit × (Slot → NameField)) (e : NameEv Unit) (h : nameEndsTest y e = true) : NameEnds y e := by
  unfold nameEndsTest at h
  unfold NameEnds
  split
  · exact of_decide_eq_true h
  · trivial

/-- The bytes behind the null are copied, too; the child gets the name. -/
theorem names_terminated_childRun : ∃ (x : Slot → NameField) (p q : Slot), x p 15 = 0x41 ∧ x q 0 = 0x41 ∧ q ≠ p ∧
    ∀ a, (x a).Terminated ∧ (printLoop (x a) NAMESIZE 0).isSome := by
  obtain ⟨⟨s, x⟩, hr, hs⟩ := Lts.Reachable.replay_any (C := NameEnds) (f := nameStep) (c := nameEndsTest) nameEnds_of_test
    (l := childRun fun _ off => if off = 1 then 0 else 0x41) (s := (procinit Unit, fun _ _ => 0))
    (I := (· = (procinit Unit, fun _ _ => 0))) rfl
    (P := fun y => y.2 ⟨0, by decide⟩ 15 == 0x41 && y.2 ⟨1, by decide⟩ 0 == 0x41) (by decide +kernel)
  simp only [Bool.and_eq_true, beq_iff_eq] at hs
  exact ⟨x, ⟨0, by decide⟩, ⟨1, by decide⟩, hs.1, hs.2, by decide, names_terminated hr⟩

/-- A name without a null. -/
theorem sname_unterminated : ¬∀ (s : Sys Unit) (x : Slot → NameField) (p : Slot), (nameLts Unit).Reachable (s, x) →
    (x p).Terminated := by
  intro h
  obtain ⟨⟨s, x⟩, hr, hs⟩ := Lts.Reachable.replay_any (C := fun _ _ => True) (f := nameStep) (c := fun _ _ => true)
    (fun _ _ _ => trivial) (l := nameRun fun _ _ => 0x41) (s := (procinit Unit, fun _ _ => 0))
    (I := (· = (procinit Unit, fun _ _ => 0))) rfl (P := fun y => !decide (Terminated (y.2 ⟨0, by decide⟩))) (by decide +kernel)
  simp only [Bool.not_eq_true', decide_eq_false_iff_not] at hs
  exact hs (h s x _ hr.of_guard)

end Xv6
