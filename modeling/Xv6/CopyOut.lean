import Xv6.MemOwner

/-!
# What the kernel writes into user memory

`copyout` and the system calls that use it, over the bytes of the physical pages.  Each call hands `copyout` one byte string, in pieces,
for consecutive addresses from an address of the user's; the pages it writes are those of the string up to the first page that is not
mapped for the user.  `walkaddr` looks at `PTE_V` and `PTE_U` only, so that a page without `PTE_W` is written like any other.
-/

namespace Xv6

/-- The bytes of the physical pages. -/
abbrev Ram := Page → Nat → UInt8

namespace Ram

def store (m : Ram) (page : Page) (off : Nat) (b : UInt8) : Ram := fun p o => if p = page ∧ o = off then b else m p o

def memmove (page : Page) : Nat → List UInt8 → Ram → Ram
  | _, [], m => m
  | off, b :: src, m => memmove page (off + 1) src (m.store page off b)

/-- The loop of `copyout`. -/
def copyoutLoop (t : PageTable) : Nat → Nat → List UInt8 → Ram → Bool × Ram
  | 0, _, _, m => (true, m)
  | fuel + 1, dstva, src, m =>
    if src.length = 0 then (true, m)
    else
      let va0 := PGROUNDDOWN dstva
      match Mem.walkaddr t va0 with
      | none => (false, m)
      | some pa0 =>
        let n := min (PGSIZE - (dstva - va0)) src.length
        copyoutLoop t fuel ((va0 + PGSIZE) % 2 ^ 64) (src.drop n) (memmove pa0 (dstva - va0) (src.take n) m)

/-- The answer is `false` for -1. -/
def copyout (t : PageTable) (dstva : Nat) (src : List UInt8) (m : Ram) : Bool × Ram := copyoutLoop t src.length dstva src m

/-! ### The callers -/

/-- The loop of `readi` with `tot` of `n` bytes read; `bmap` has the data of the blocks that `bmap` finds. -/
def readiLoop (t : PageTable) (bmap : Nat → Option (Nat → UInt8)) (n : Nat) : Nat → Nat → Nat → Nat → Ram → Ram
  | 0, _, _, _, m => m
  | fuel + 1, tot, off, dst, m =>
    if tot < n then
      match bmap (off / BSIZE) with
      | none => m
      | some data =>
        let k := min (n - tot) (BSIZE - off % BSIZE)
        match copyout t dst ((List.range k).map fun i => data (off % BSIZE + i)) m with
        | (false, m) => m
        | (true, m) => readiLoop t bmap n fuel (tot + k) (off + k) ((dst + k) % 2 ^ 64) m
    else m

/-- The number of bytes that `readi` reads at most, of an inode with `size` bytes. -/
def readiLen (size off n : Nat) : Nat :=
  if off > size ∨ (off + n) % 2 ^ 32 < off then 0 else if (off + n) % 2 ^ 32 > size then size - off else n

/-- `readi(ip, 1, dst, off, n)` for the `uint` of the argument `n`. -/
def readi (t : PageTable) (size : Nat) (bmap : Nat → Option (Nat → UInt8)) (dst off : Nat) (n : Int) (m : Ram) : Ram :=
  let n := readiLen size off (n % 2 ^ 32).toNat
  readiLoop t bmap n n 0 off dst m

/-- The loop of `piperead` at `i` with `n` turns left; `data` is what is in the pipe. -/
def pipereadLoop (t : PageTable) (addr : Nat) : Nat → Nat → List UInt8 → Ram → Ram
  | 0, _, _, m => m
  | _ + 1, _, [], m => m
  | n + 1, i, ch :: data, m =>
    match copyout t ((addr + i) % 2 ^ 64) [ch] m with
    | (false, m) => m
    | (true, m) => pipereadLoop t addr n (i + 1) data m

/-- `C('D')` and the end of a line. -/
def CTRLD : UInt8 := 4

def NEWLINE : UInt8 := 10

/-- The loop of `consoleread` with `n` bytes left; `input` is what the console has for it until the process is killed. -/
def consolereadLoop (t : PageTable) : Nat → Nat → List UInt8 → Ram → Ram
  | 0, _, _, m => m
  | _ + 1, _, [], m => m
  | n + 1, dst, c :: input, m =>
    if c = CTRLD then m
    else
      match copyout t dst [c] m with
      | (false, m) => m
      | (true, m) => if c = NEWLINE then m else consolereadLoop t n ((dst + 1) % 2 ^ 64) input m

/-- The last part of `sys_pipe`. -/
def pipeFds (t : PageTable) (fdarray : Nat) (fd0 fd1 : List UInt8) (m : Ram) : Ram :=
  match copyout t fdarray fd0 m with
  | (false, m) => m
  | (true, m) => (copyout t ((fdarray + fd0.length) % 2 ^ 64) fd1 m).2

/-- The loop of `cinfo` over the containers in use. -/
def cinfoLoop (t : PageTable) : Nat → List (List UInt8) → Ram → Ram
  | _, [], m => m
  | up_p, ci :: cis, m =>
    match copyout t up_p ci m with
    | (false, m) => m
    | (true, m) => cinfoLoop t ((up_p + ci.length) % 2 ^ 64) cis m

end Ram

/-- The system calls that copy to the user, with their addresses and lengths and with what they find to copy.  A call that does not
get so far copies nothing. -/
inductive OutCall
  | readFile (addr : UInt64) (n : Int) (size off : Nat) (bmap : Nat → Option (Nat → UInt8))
  | readPipe (addr : UInt64) (n : Int) (data : List UInt8)
  | readConsole (addr : UInt64) (n : Int) (input : List UInt8)
  | wait (addr : UInt64) (xstate : Fin 4 → UInt8)
  | fstat (addr : UInt64) (st : Fin 24 → UInt8)
  | pipe (addr : UInt64) (fd0 fd1 : Fin 4 → UInt8)
  | sproc (addr : UInt64) (up : Fin 48 → UInt8)
  | cinfo (addr : UInt64) (cis : List (Fin 172 → UInt8))

namespace OutCall

/-- The bytes of memory after the call. -/
def run (t : PageTable) (m : Ram) : OutCall → Ram
  | readFile addr n size off bmap => Ram.readi t size bmap addr.toNat off n m
  | readPipe addr n data => Ram.pipereadLoop t addr.toNat n.toNat 0 data m
  | readConsole addr n input => Ram.consolereadLoop t n.toNat addr.toNat input m
  | wait addr xstate => if addr ≠ 0 then (Ram.copyout t addr.toNat (List.ofFn xstate) m).2 else m
  | fstat addr st => (Ram.copyout t addr.toNat (List.ofFn st) m).2
  | pipe addr fd0 fd1 => Ram.pipeFds t addr.toNat (List.ofFn fd0) (List.ofFn fd1) m
  | sproc addr up => (Ram.copyout t addr.toNat (List.ofFn up) m).2
  | cinfo addr cis => Ram.cinfoLoop t addr.toNat (cis.map List.ofFn) m

def addr : OutCall → UInt64
  | readFile addr .. | readPipe addr .. | readConsole addr .. | wait addr _ | fstat addr _ | pipe addr .. | sproc addr _ | cinfo addr _ =>
    addr

/-- The bytes of a file from `off`, up to a block that `bmap` does not find. -/
def fileBytes (bmap : Nat → Option (Nat → UInt8)) : Nat → Nat → List UInt8
  | _, 0 => []
  | off, n + 1 =>
    match bmap (off / BSIZE) with
    | none => []
    | some data => data (off % BSIZE) :: fileBytes bmap (off + 1) n

/-- What `consoleread` takes: up to the end of a line, or up to the end of the input. -/
def lineBytes : Nat → List UInt8 → List UInt8
  | 0, _ => []
  | _ + 1, [] => []
  | n + 1, c :: input => if c = Ram.CTRLD then [] else if c = Ram.NEWLINE then [c] else c :: lineBytes n input

/-- What the call has for the user. -/
def bytes : OutCall → List UInt8
  | readFile _ n size off bmap => fileBytes bmap off (Ram.readiLen size off (n % 2 ^ 32).toNat)
  | readPipe _ n data => data.take n.toNat
  | readConsole _ n input => lineBytes n.toNat input
  | wait addr xstate => if addr ≠ 0 then List.ofFn xstate else []
  | fstat _ st => List.ofFn st
  | pipe _ fd0 fd1 => List.ofFn fd0 ++ List.ofFn fd1
  | sproc _ up => List.ofFn up
  | cinfo _ cis => (cis.map List.ofFn).flatten

end OutCall

namespace Ram

variable {t : PageTable}

/-! ### Byte by byte -/

/-- The bytes at the addresses from `a`, up to the first page that is not mapped for the user. -/
def put (t : PageTable) : Nat → List UInt8 → Ram → Bool × Ram
  | _, [], m => (true, m)
  | a, b :: bs, m =>
    match Mem.walkaddr t (PGROUNDDOWN a) with
    | none => (false, m)
    | some pa => put t (a + 1) bs (m.store pa (a % PGSIZE) b)

theorem put_cons {a : Nat} {pa : Page} (h : Mem.walkaddr t (PGROUNDDOWN a) = some pa) (b : UInt8) (bs : List UInt8) (m : Ram) :
    put t a (b :: bs) m = put t (a + 1) bs (m.store pa (a % PGSIZE) b) := by
  rw [put, h]

theorem put_append (a : Nat) (xs ys : List UInt8) (m : Ram) : put t a (xs ++ ys) m =
    match put t a xs m with
    | (false, m) => (false, m)
    | (true, m) => put t (a + xs.length) ys m := by
  induction xs generalizing a m with
  | nil => rfl
  | cons x xs ih =>
    simp only [List.cons_append, put]
    cases Mem.walkaddr t (PGROUNDDOWN a) with
    | none => rfl
    | some pa =>
      simp only [ih, List.length_cons]
      rw [show a + 1 + xs.length = a + (xs.length + 1) by omega]

theorem walkaddr_lt {a : Nat} {pa : Page} (h : Mem.walkaddr t (PGROUNDDOWN a) = some pa) : a < MAXVA := by
  unfold Mem.walkaddr at h
  split at h
  · cases h
  · rename_i hlt
    simp only [PGROUNDDOWN, MAXVA, PGSIZE] at hlt ⊢
    omega

/-- What is copied lies below `MAXVA`, so that the addresses do not wrap. -/
theorem put_le {a : Nat} {bs : List UInt8} {m : Ram} (h : (put t a bs m).1 = true) : bs = [] ∨ a + bs.length ≤ MAXVA := by
  induction bs generalizing a m with
  | nil => exact .inl rfl
  | cons b bs ih =>
    simp only [put] at h
    cases hw : Mem.walkaddr t (PGROUNDDOWN a) with
    | none =>
      rw [hw] at h
      cases h
    | some pa =>
      rw [hw] at h
      have hlt := walkaddr_lt hw
      right
      rcases ih h with rfl | hle
      · exact hlt
      · simp only [List.length_cons]
        omega

theorem put_mod {a : Nat} (ha : a < 2 ^ 64) {bs : List UInt8} {m : Ram} (h : (put t a bs m).1 = true) :
    (a + bs.length) % 2 ^ 64 = a + bs.length := by
  apply Nat.mod_eq_of_lt
  rcases put_le h with rfl | hle
  · exact ha
  · exact Nat.lt_of_le_of_lt hle (by decide)

/-- The bytes of one page. -/
theorem put_page {pa : Page} {xs : List UInt8} {a : Nat} (h : Mem.walkaddr t (PGROUNDDOWN a) = some pa)
    (hle : a % PGSIZE + xs.length ≤ PGSIZE) (m : Ram) : put t a xs m = (true, memmove pa (a % PGSIZE) xs m) := by
  induction xs generalizing a m with
  | nil => rfl
  | cons x xs ih =>
    rw [put_cons h]
    cases xs with
    | nil => rfl
    | cons y ys =>
      simp only [List.length_cons] at hle ih
      have hmod : (a + 1) % PGSIZE = a % PGSIZE + 1 := by
        simp only [PGSIZE] at hle ⊢
        omega
      have hpage : PGROUNDDOWN (a + 1) = PGROUNDDOWN a := by
        simp only [PGROUNDDOWN, PGSIZE] at hle ⊢
        omega
      rw [ih (by rw [hpage, h]) (by omega), hmod]
      rfl

theorem sub_pgrounddown (a : Nat) : a - PGROUNDDOWN a = a % PGSIZE := by
  simp only [PGROUNDDOWN, PGSIZE]
  omega

theorem copyoutLoop_eq {fuel : Nat} {a : Nat} {src : List UInt8} (hf : src.length ≤ fuel) (ha : a < 2 ^ 64) (m : Ram) :
    copyoutLoop t fuel a src m = put t a src m := by
  induction fuel generalizing a src m with
  | zero =>
    obtain rfl := List.length_eq_zero_iff.1 (Nat.le_zero.1 hf)
    rfl
  | succ fuel ih =>
    unfold copyoutLoop
    cases src with
    | nil => rfl
    | cons b bs =>
      rw [if_neg (by simp)]
      dsimp only
      cases hw : Mem.walkaddr t (PGROUNDDOWN a) with
      | none => rw [put, hw]
      | some pa =>
        dsimp only
        have hlt := walkaddr_lt hw
        rw [sub_pgrounddown]
        set n := min (PGSIZE - a % PGSIZE) (b :: bs).length with hn
        have hpos : 0 < PGSIZE - a % PGSIZE := Nat.sub_pos_of_lt (Nat.mod_lt a (by decide))
        have htake : ((b :: bs).take n).length = n := by
          rw [List.length_take]
          omega
        have hdrop : ((b :: bs).drop n).length ≤ fuel := by
          simp only [List.length_drop, List.length_cons] at hf hn ⊢
          omega
        have hput : put t a ((b :: bs).take n) m = (true, _) := put_page hw (by omega) m
        have hsplit := put_append (t := t) a ((b :: bs).take n) ((b :: bs).drop n) m
        rw [List.take_append_drop, hput, htake] at hsplit
        rw [hsplit]
        dsimp only
        by_cases hlen : PGSIZE - a % PGSIZE ≤ (b :: bs).length
        · -- the next byte is the first one of the next page
          have hnext : (PGROUNDDOWN a + PGSIZE) % 2 ^ 64 = a + n := by
            rw [hn, Nat.min_eq_left hlen]
            simp only [PGROUNDDOWN, PGSIZE, MAXVA] at hlt ⊢
            omega
          have hsum : a + n < MAXVA + PGSIZE := by omega
          rw [hnext]
          exact ih hdrop (Nat.lt_trans hsum (by decide)) _
        · have hnil : (b :: bs).drop n = [] := by
            apply List.drop_eq_nil_of_le
            omega
          rw [hnil]
          cases fuel <;> rfl

theorem copyout_eq {a : Nat} (ha : a < 2 ^ 64) (src : List UInt8) (m : Ram) : copyout t a src m = put t a src m :=
  copyoutLoop_eq (Nat.le_refl _) ha m

/-- The answer is that of `copyout` without the bytes. -/
theorem copyoutLoop_fst (fuel a : Nat) (src : List UInt8) (m : Ram) :
    (copyoutLoop t fuel a src m).1 = Mem.copyLoop t fuel a src.length := by
  induction fuel generalizing a src m with
  | zero => rfl
  | succ fuel ih =>
    unfold copyoutLoop Mem.copyLoop
    split
    · rfl
    · dsimp only
      cases Mem.walkaddr t (PGROUNDDOWN a) with
      | none => rfl
      | some pa =>
        dsimp only
        rw [ih, List.length_drop]

theorem copyout_fst (t : PageTable) (a : Nat) (src : List UInt8) (m : Ram) : (copyout t a src m).1 = Mem.copyout t a src.length :=
  copyoutLoop_fst ..

end Ram

/-! ### The calls copy their bytes -/

namespace OutCall

open Ram

variable {t : PageTable}

/-- The bytes of one block. -/
theorem fileBytes_add {bmap : Nat → Option (Nat → UInt8)} {off k : Nat} {data : Nat → UInt8} (h : bmap (off / BSIZE) = some data)
    (hle : off % BSIZE + k ≤ BSIZE) (r : Nat) :
    fileBytes bmap off (k + r) = ((List.range k).map fun i => data (off % BSIZE + i)) ++ fileBytes bmap (off + k) r := by
  induction k generalizing r with
  | zero => simp
  | succ k ih =>
    have hblock : (off + k) / BSIZE = off / BSIZE := by
      simp only [BSIZE] at hle ⊢
      omega
    have hmod : (off + k) % BSIZE = off % BSIZE + k := by
      simp only [BSIZE] at hle ⊢
      omega
    have hstep : fileBytes bmap (off + k) (r + 1) = data (off % BSIZE + k) :: fileBytes bmap (off + (k + 1)) r := by
      rw [fileBytes, hblock, h, hmod]
      rfl
    rw [show k + 1 + r = k + (r + 1) by omega, ih (by omega), hstep, List.range_succ, List.map_append, List.append_assoc]
    rfl

theorem readiLoop_eq {bmap : Nat → Option (Nat → UInt8)} {n fuel tot : Nat} (hf : n ≤ tot + fuel) (off : Nat) {dst : Nat}
    (hd : dst < 2 ^ 64) (m : Ram) : readiLoop t bmap n fuel tot off dst m = (put t dst (fileBytes bmap off (n - tot)) m).2 := by
  induction fuel generalizing tot off dst m with
  | zero =>
    rw [show n - tot = 0 by omega]
    rfl
  | succ fuel ih =>
    unfold readiLoop
    by_cases hlt : tot < n
    · rw [if_pos hlt]
      cases hb : bmap (off / BSIZE) with
      | none =>
        obtain ⟨r, hr⟩ : ∃ r, n - tot = r + 1 := ⟨n - tot - 1, by omega⟩
        rw [hr, fileBytes, hb]
        rfl
      | some data =>
        dsimp only
        set k := min (n - tot) (BSIZE - off % BSIZE) with hk
        have hmod : off % BSIZE < BSIZE := Nat.mod_lt off (by decide)
        have hpos : 0 < k := by omega
        have hbytes := fileBytes_add (k := k) hb (by omega) (n - tot - k)
        rw [show k + (n - tot - k) = n - tot by omega] at hbytes
        rw [hbytes, put_append, copyout_eq hd]
        cases hput : put t dst ((List.range k).map fun i => data (off % BSIZE + i)) m with
        | mk ok m' =>
          cases ok with
          | false => rfl
          | true =>
            dsimp only
            have hwrap := put_mod hd (congrArg Prod.fst hput)
            rw [ih (by omega) _ (Nat.mod_lt _ (by decide)), ← hwrap, show n - tot - k = n - (tot + k) by omega]
            simp
    · rw [if_neg hlt, show n - tot = 0 by omega]
      rfl

/-- One byte of a loop that copies byte by byte. -/
theorem put_one {a : Nat} (ha : a < 2 ^ 64) (b : UInt8) (bs : List UInt8) (m : Ram) : put t a (b :: bs) m =
    match copyout t a [b] m with
    | (false, m) => (false, m)
    | (true, m) => put t ((a + 1) % 2 ^ 64) bs m := by
  rw [copyout_eq ha, ← List.singleton_append, put_append]
  cases hput : put t a [b] m with
  | mk ok m' =>
    cases ok with
    | false => rfl
    | true =>
      dsimp only
      rw [← put_mod ha (congrArg Prod.fst hput)]
      rfl

theorem pipereadLoop_eq (addr n i : Nat) (data : List UInt8) (m : Ram) :
    pipereadLoop t addr n i data m = (put t ((addr + i) % 2 ^ 64) (data.take n) m).2 := by
  induction n generalizing i data m with
  | zero => rfl
  | succ n ih =>
    cases data with
    | nil => rfl
    | cons ch data =>
      rw [pipereadLoop, List.take_succ_cons, put_one (Nat.mod_lt _ (by decide))]
      cases hc : copyout t ((addr + i) % 2 ^ 64) [ch] m with
      | mk ok m' =>
        cases ok with
        | false => rfl
        | true =>
          dsimp only
          rw [ih, Nat.mod_add_mod, Nat.add_assoc]

theorem consolereadLoop_eq (n : Nat) {dst : Nat} (hd : dst < 2 ^ 64) (input : List UInt8) (m : Ram) :
    consolereadLoop t n dst input m = (put t dst (lineBytes n input) m).2 := by
  induction n generalizing dst input m with
  | zero => rfl
  | succ n ih =>
    cases input with
    | nil => rfl
    | cons c input =>
      rw [consolereadLoop, lineBytes]
      by_cases hctrl : c = CTRLD
      · rw [if_pos hctrl, if_pos hctrl]
        rfl
      · rw [if_neg hctrl, if_neg hctrl]
        by_cases hnl : c = NEWLINE
        · rw [if_pos hnl, put_one hd]
          cases hc : copyout t dst [c] m with
          | mk ok m' =>
            cases ok with
            | false => rfl
            | true => exact if_pos hnl
        · rw [if_neg hnl, put_one hd]
          cases hc : copyout t dst [c] m with
          | mk ok m' =>
            cases ok with
            | false => rfl
            | true =>
              dsimp only
              rw [if_neg hnl, ih (Nat.mod_lt _ (by decide))]

theorem pipeFds_eq {fdarray : Nat} (ha : fdarray < 2 ^ 64) (fd0 fd1 : List UInt8) (m : Ram) :
    pipeFds t fdarray fd0 fd1 m = (put t fdarray (fd0 ++ fd1) m).2 := by
  rw [pipeFds, put_append, copyout_eq ha]
  cases hput : put t fdarray fd0 m with
  | mk ok m' =>
    cases ok with
    | false => rfl
    | true =>
      dsimp only
      have hwrap := put_mod ha (congrArg Prod.fst hput)
      rw [copyout_eq (Nat.mod_lt _ (by decide)), hwrap]

theorem cinfoLoop_eq {up_p : Nat} (ha : up_p < 2 ^ 64) (cis : List (List UInt8)) (m : Ram) :
    cinfoLoop t up_p cis m = (put t up_p cis.flatten m).2 := by
  induction cis generalizing up_p m with
  | nil => rfl
  | cons ci cis ih =>
    rw [cinfoLoop, List.flatten_cons, put_append, copyout_eq ha]
    cases hput : put t up_p ci m with
    | mk ok m' =>
      cases ok with
      | false => rfl
      | true =>
        dsimp only
        have hwrap := put_mod ha (congrArg Prod.fst hput)
        rw [ih (Nat.mod_lt _ (by decide)), hwrap]

/-- Every call copies its bytes to its address. -/
theorem run_eq (c : OutCall) (m : Ram) : c.run t m = (put t c.addr.toNat c.bytes m).2 := by
  have ha : ∀ a : UInt64, a.toNat < 2 ^ 64 := UInt64.toNat_lt
  cases c with
  | readFile addr n size off bmap => exact readiLoop_eq (Nat.le_add_left ..) off (ha addr) m
  | readPipe addr n data =>
    have hmod : (addr.toNat + 0) % 2 ^ 64 = addr.toNat := Nat.mod_eq_of_lt (ha addr)
    rw [run, pipereadLoop_eq, hmod]
    rfl
  | readConsole addr n input => exact consolereadLoop_eq _ (ha addr) input m
  | wait addr xstate =>
    rw [run, bytes]
    split
    · exact congrArg Prod.snd (copyout_eq (ha addr) _ m)
    · rfl
  | fstat addr st => exact congrArg Prod.snd (copyout_eq (ha addr) _ m)
  | pipe addr fd0 fd1 => exact pipeFds_eq (ha addr) _ _ m
  | sproc addr up => exact congrArg Prod.snd (copyout_eq (ha addr) _ m)
  | cinfo addr cis => exact cinfoLoop_eq (ha addr) _ m

end OutCall

/-! ### Which pages are written -/

/-- The page of `va` is mapped for the user. -/
def PageTable.UserAt (t : PageTable) (va : Nat) : Prop := va < MAXVA ∧ ∃ e, t.get (va / PGSIZE) = some e ∧ e.perm.u = true

/-- No two virtual pages are mapped to one physical page. -/
def PageTable.Distinct (t : PageTable) : Prop :=
  ∀ i < 2 ^ 27, ∀ j < 2 ^ 27, ∀ e e', t.get i = some e → t.get j = some e' → e.page = e'.page → i = j

namespace Ram

variable {t : PageTable}

theorem walkaddr_eq_some {a : Nat} {pa : Page} : Mem.walkaddr t (PGROUNDDOWN a) = some pa ↔
    a < MAXVA ∧ ∃ e, t.get (a / PGSIZE) = some e ∧ e.perm.u = true ∧ e.page = pa := by
  have hmax : PGROUNDDOWN a ≥ MAXVA ↔ ¬a < MAXVA := by
    simp only [PGROUNDDOWN, PGSIZE, MAXVA]
    omega
  unfold Mem.walkaddr
  by_cases ha : a < MAXVA
  · rw [if_neg (by rwa [hmax, not_not])]
    have hget : t.get (a / PGSIZE) = (t.find (PGROUNDDOWN a)).join := rfl
    rw [hget]
    rcases t.find (PGROUNDDOWN a) with _ | _ | e <;> simp [ha]
  · rw [if_pos (hmax.2 ha)]
    simp [ha]

theorem page_lt {a : Nat} (h : a < MAXVA) : a / PGSIZE < 2 ^ 27 := by
  simp only [MAXVA, PGSIZE] at h ⊢
  omega

/-- The physical page and the offset of a byte that is put. -/
def PutAt (t : PageTable) (a k : Nat) (page : Page) (off : Nat) : Prop :=
  (∀ j ≤ k, t.UserAt (a + j)) ∧ off = (a + k) % PGSIZE ∧ ∃ e, t.get ((a + k) / PGSIZE) = some e ∧ e.page = page

theorem PutAt.succ {a k : Nat} {page : Page} {off : Nat} (ha : t.UserAt a) (h : PutAt t (a + 1) k page off) :
    PutAt t a (k + 1) page off := by
  obtain ⟨huser, hoff, he⟩ := h
  rw [show a + 1 + k = a + (k + 1) by omega] at hoff he
  refine ⟨fun j hj => ?_, hoff, he⟩
  cases j with
  | zero => exact ha
  | succ j =>
    rw [show a + (j + 1) = a + 1 + j by omega]
    exact huser j (by omega)

/-- A byte that changes is one of those that are put. -/
theorem put_frame {a : Nat} {bs : List UInt8} {m : Ram} {page : Page} {off : Nat}
    (h : (put t a bs m).2 page off ≠ m page off) : ∃ k < bs.length, PutAt t a k page off := by
  induction bs generalizing a m with
  | nil => exact absurd rfl h
  | cons b bs ih =>
    cases hw : Mem.walkaddr t (PGROUNDDOWN a) with
    | none =>
      rw [put, hw] at h
      exact absurd rfl h
    | some pa =>
      rw [put_cons hw] at h
      obtain ⟨hlt, e, he, hu, hpa⟩ := walkaddr_eq_some.1 hw
      by_cases hsame : page = pa ∧ off = a % PGSIZE
      · refine ⟨0, Nat.succ_pos _, fun j hj => ?_, hsame.2, e, he, hpa.trans hsame.1.symm⟩
        obtain rfl : j = 0 := by omega
        exact ⟨hlt, e, he, hu⟩
      · have hstore : m.store pa (a % PGSIZE) b page off = m page off := if_neg hsame
        rw [← hstore] at h
        obtain ⟨k, hk, hput⟩ := ih h
        exact ⟨k + 1, Nat.succ_lt_succ hk, hput.succ ⟨hlt, e, he, hu⟩⟩

/-- A byte that is put stays: the bytes after it go elsewhere. -/
theorem put_at (hd : t.Distinct) {a k : Nat} {bs : List UInt8} (hk : k < bs.length) {page : Page} {off : Nat}
    (h : PutAt t a k page off) (m : Ram) : (put t a bs m).2 page off = bs[k] := by
  induction bs generalizing a k m with
  | nil => cases hk
  | cons b bs ih =>
    obtain ⟨huser, hoff, e, he, hpage⟩ := h
    obtain ⟨hlt, e0, he0, hu0⟩ := huser 0 (Nat.zero_le k)
    rw [Nat.add_zero] at hlt he0
    rw [put_cons (walkaddr_eq_some.2 ⟨hlt, e0, he0, hu0, rfl⟩)]
    cases k with
    | succ k =>
      refine ih (Nat.lt_of_succ_lt_succ hk) ⟨fun j hj => ?_, ?_, e, ?_, hpage⟩ _
      · rw [show a + 1 + j = a + (j + 1) by omega]
        exact huser (j + 1) (by omega)
      · rw [hoff, show a + 1 + k = a + (k + 1) by omega]
      · rw [show a + 1 + k = a + (k + 1) by omega, he]
    | zero =>
      have hfirst : m.store e0.page (a % PGSIZE) b page off = b := by
        refine if_pos ⟨?_, hoff⟩
        rw [← hpage]
        exact congrArg Pte.page (Option.some.inj (he.symm.trans he0))
      show (put t (a + 1) bs _).2 page off = b
      by_contra hne
      obtain ⟨k, -, huser', hoff', e', he', hpage'⟩ := put_frame fun h => hne (h.trans hfirst)
      have hlast := (huser' k (Nat.le_refl k)).1
      have hdiv := hd _ (page_lt hlt) _ (page_lt hlast) e e' he he' (hpage.trans hpage'.symm)
      simp only [Nat.add_zero, PGSIZE] at hdiv hoff hoff'
      omega

end Ram

/-! ### The pages of a process are distinct -/

namespace PageTable

variable {t : PageTable} {n : Nat}

theorem count_frames (t : PageTable) (n : Nat) (page : Page) :
    (t.frames n).count page = ∑ i ∈ Finset.range n, Multiset.count page ((t.get i).elim 0 fun e => {e.page}) := by
  rw [frames, framesFrom, Multiset.count_sum']
  simp only [Nat.zero_add]

theorem frames_inj (h : ∀ page, (t.frames n).count page ≤ 1) {i j : Nat} (hi : i < n) (hj : j < n) {e e' : Pte}
    (he : t.get i = some e) (he' : t.get j = some e') (hp : e.page = e'.page) : i = j := by
  by_contra hne
  have hsub : ({i, j} : Finset Nat) ⊆ Finset.range n := by
    intro k hk
    rcases Finset.mem_insert.1 hk with rfl | hk
    · exact Finset.mem_range.2 hi
    · exact Finset.mem_range.2 (Finset.mem_singleton.1 hk ▸ hj)
  have hle := Finset.sum_le_sum_of_subset (f := fun i => Multiset.count e.page ((t.get i).elim 0 fun e => {e.page})) hsub
  rw [← count_frames, Finset.sum_pair hne, he, he'] at hle
  simp only [Option.elim_some, ← hp, Multiset.count_singleton_self] at hle
  have := h e.page
  omega

theorem mem_frames {i : Nat} (hi : i < n) {e : Pte} (he : t.get i = some e) : e.page ∈ t.frames n := by
  rw [← Multiset.count_pos, count_frames]
  refine Finset.sum_pos' (fun _ _ => Nat.zero_le _) ⟨i, Finset.mem_range.2 hi, ?_⟩
  rw [he]
  simp

end PageTable

theorem Shape.mapped [KernelText] {t : PageTable} {n : Nat} {trapframe : Page} (h : Shape t n trapframe) {i : Nat} (hi : i < 2 ^ 27) {e : Pte}
    (he : t.get i = some e) : i < n ∨ i = TFPAGE ∧ e.page = trapframe ∨ i = TRPAGE ∧ e.page = KernelText.trampoline := by
  by_cases hn : i < n
  · exact .inl hn
  · by_cases hf : i = TFPAGE
    · subst hf
      rw [h.frame] at he
      cases he
      exact .inr (.inl ⟨rfl, rfl⟩)
    · by_cases hr : i = TRPAGE
      · subst hr
        rw [h.tramp] at he
        cases he
        exact .inr (.inr ⟨rfl, rfl⟩)
      · rw [h.rest i hi (by omega) hf hr] at he
        cases he

theorem Shape.distinct [KernelText] {t : PageTable} {n : Nat} {trapframe : Page} (h : Shape t n trapframe)
    (hone : ∀ page, (({trapframe} : Multiset Page) + t.frames n).count page ≤ 1)
    (htramp : KernelText.trampoline ∉ ({trapframe} : Multiset Page) + t.frames n) : t.Distinct := by
  have hframe : trapframe ∉ t.frames n := by
    intro hmem
    have := hone trapframe
    rw [Multiset.count_add, Multiset.count_singleton_self] at this
    have := Multiset.count_pos.2 hmem
    omega
  have hne : trapframe ≠ KernelText.trampoline := by
    rintro rfl
    exact htramp (Multiset.mem_add.2 (.inl (Multiset.mem_singleton_self _)))
  have htr : KernelText.trampoline ∉ t.frames n := fun hmem => htramp (Multiset.mem_add.2 (.inr hmem))
  have hcount : ∀ page, (t.frames n).count page ≤ 1 := by
    intro page
    have := hone page
    rw [Multiset.count_add] at this
    omega
  intro i hi j hj e e' he he' hp
  rcases h.mapped hi he with hin | ⟨rfl, hpi⟩ | ⟨rfl, hpi⟩ <;> rcases h.mapped hj he' with hjn | ⟨rfl, hpj⟩ | ⟨rfl, hpj⟩
  · exact PageTable.frames_inj hcount hin hjn he he' hp
  · exact absurd (hpj ▸ hp ▸ PageTable.mem_frames hin he) hframe
  · exact absurd (hpj ▸ hp ▸ PageTable.mem_frames hin he) htr
  · exact absurd (hpi ▸ hp.symm ▸ PageTable.mem_frames hjn he') hframe
  · rfl
  · exact absurd (hpi.symm.trans (hp.trans hpj)) hne
  · exact absurd (hpi ▸ hp.symm ▸ PageTable.mem_frames hjn he') htr
  · exact absurd (hpj.symm.trans (hp.symm.trans hpi)) hne
  · rfl

/-- The text of the kernel, which has the trampoline, is not part of the range of the allocator. -/
def Layout.TrampolineBelow (L : Layout) : Prop := (L.trampoline + 1) * PGSIZE ≤ L.kend

theorem MemSys.Inv.distinct {L : Layout} (hL : L.TrampolineBelow) {s : MemSys} (h : s.Inv L) {p : Fin NPROC}
    (hst : (s.k.slot p).st = .live ∨ (s.k.slot p).st = .zombie) {t : PageTable} (ht : (s.k.slot p).im.pagetable = some t) :
    t.Distinct := by
  obtain ⟨own, hacc, -⟩ := h
  obtain ⟨page, t', hpage, ht', hs⟩ := (hacc.slots.ok p hst).shape
  obtain rfl : t = t' := Option.some.inj (ht.symm.trans ht')
  have hpages : (s.k.slot p).pages = {page} + (t.tables + t.frames (npages (s.k.slot p).im.sz)) := by
    rw [MemSlot.pages, if_neg (by rcases hst with h | h <;> simp [h]), hpage, ht]
    rfl
  have hheld : ∀ q, (s.k.slot p).pages.count q ≤ heldPage (held s.k.slot own) q := by
    intro q
    rw [MemSlot.count_pages (by rcases hst with h | h <;> simp [h])]
    have := Finset.single_le_sum (f := fun p => Multiset.count (.page q) (s.k.slot p).res) (fun _ _ => Nat.zero_le _)
      (Finset.mem_univ p)
    exact this.trans ((Nat.le_add_left _ _).trans (Nat.le_add_right _ _))
  have hle : ∀ q, (({page} : Multiset Page) + t.frames (npages (s.k.slot p).im.sz)).count q ≤ (s.k.slot p).pages.count q := by
    intro q
    rw [hpages]
    simp only [Multiset.count_add]
    omega
  refine hs.distinct (fun q => (hle q).trans ((hheld q).trans (hacc.heldPage_le q))) fun hmem => ?_
  have hin := hacc.mem_pages (Nat.lt_of_lt_of_le (Multiset.count_pos.2 hmem) ((hle _).trans (hheld _)))
  have hlow : (L.kend + PGSIZE - 1) / PGSIZE ≤ KernelText.trampoline := (Finset.mem_Ico.1 hin).1
  have hup : KernelText.trampoline < L.kend / PGSIZE := (Nat.le_div_iff_mul_le (by decide)).2 hL
  have hdiv : L.kend / PGSIZE ≤ (L.kend + PGSIZE - 1) / PGSIZE := Nat.div_le_div_right (Nat.le_add_right _ _)
  exact absurd (hdiv.trans hlow) (Nat.not_le.2 hup)

/-! ### Protected pages -/

/-- No byte of a page that the user may not write is another one. -/
def Ram.Protected (t : PageTable) (m m' : Ram) : Prop :=
  ∀ i < 2 ^ 27, ∀ e, t.get i = some e → e.perm.w = false ∨ e.perm.u = false → m' e.page = m e.page

/-- The pages of the bytes of the call have `PTE_W`, up to the first page that is not mapped for the user. -/
def OutCall.Writable (t : PageTable) (c : OutCall) : Prop :=
  ∀ k < c.bytes.length, (∀ j ≤ k, t.UserAt (c.addr.toNat + j)) →
    ∀ e, t.get ((c.addr.toNat + k) / PGSIZE) = some e → e.perm.w = true

/-- The pages of a process that the user may not write keep their bytes in a system call, whatever their bytes are, exactly if all the
pages that the call reaches have `PTE_W`. -/
theorem copies_where_writable {L : Layout} (hL : L.TrampolineBelow) {s : MemSys} (hs : (memLts L).Reachable s) {p : Fin NPROC}
    (hst : (s.k.slot p).st = .live) {t : PageTable} (ht : (s.k.slot p).im.pagetable = some t) (c : OutCall) :
    (∀ m, Ram.Protected t m (c.run t m)) ↔ c.Writable t := by
  have hd := (MemSys.Inv.reachable hs).distinct hL (.inl hst) ht
  constructor
  · intro hprot k hk huser e he
    by_contra hw
    -- memory that differs from all that is copied
    have hrun := Ram.put_at hd hk ⟨huser, rfl, e, he, rfl⟩ fun _ _ => c.bytes[k] + 1
    have hlt := Ram.page_lt (huser k (Nat.le_refl k)).1
    have hsame := congrFun (hprot (fun _ _ => c.bytes[k] + 1) _ hlt e he (.inl (by simpa using hw))) ((c.addr.toNat + k) % PGSIZE)
    rw [OutCall.run_eq, hrun] at hsame
    have hbyte := congrArg UInt8.toNat (show c.bytes[k] = c.bytes[k] + 1 from hsame)
    rw [UInt8.toNat_add, UInt8.toNat_one] at hbyte
    omega
  · intro hw m i hi e he hperm
    funext off
    by_contra hne
    rw [OutCall.run_eq] at hne
    obtain ⟨k, hk, huser, -, e', he', hpage⟩ := Ram.put_frame hne
    obtain ⟨hlt, e'', he'', hu⟩ := huser k (Nat.le_refl k)
    obtain rfl := hd _ (Ram.page_lt hlt) i hi e' e he' he hpage
    obtain rfl : e' = e := Option.some.inj (he'.symm.trans he)
    obtain rfl : e' = e'' := Option.some.inj (he'.symm.trans he'')
    rw [hw k hk huser e' he', hu] at hperm
    simp at hperm

/-! ### A text segment -/

/-- A machine with 24 pages left for processes. -/
local instance textLayout : Layout where
  trampoline := KERNBASE / PGSIZE + 7
  kend := PHYSTOP - 24 * PGSIZE
  kend_ge := by decide
  boot := ∅

def textKernel : Kernel := { sampleKernel with free := List.range' (PHYSTOP / PGSIZE - 24) 24 }

/-- The state after `userinit` on `textKernel`. -/
def textStart : MemSys :=
  match Kernel.run textLayout (Mem.userinit 0) textKernel with
  | some (some q, k) => ⟨{ k with initproc := q }, fun _ => none⟩
  | _ => ⟨textKernel, fun _ => none⟩

theorem textStart_init : textStart.Init textLayout := by
  have hfresh : textKernel.Fresh textLayout := ⟨by decide +kernel, fun _ => rfl, fun _ => rfl, fun _ => rfl, rfl⟩
  have hrun : (Kernel.run textLayout (Mem.userinit 0) textKernel).any (fun x => x.1.isSome) = true := by decide +kernel
  cases hr : Kernel.run textLayout (Mem.userinit 0) textKernel with
  | none =>
    rw [hr] at hrun
    cases hrun
  | some x =>
    obtain ⟨q, k⟩ := x
    cases q with
    | none =>
      rw [hr] at hrun
      cases hrun
    | some q => exact ⟨textKernel, 0, q, k, hfresh, hr, by rw [textStart, hr]⟩

/-- A little-endian number of 8 bytes. -/
def le8 (b : UInt8) : List UInt8 := [b, 0, 0, 0, 0, 0, 0, 0]

/-- An ELF file: one program header, at 64, for a segment at 0 with one byte of memory and the flags for reading and executing. -/
def textImage : List UInt8 :=
  [0x7f, 0x45, 0x4c, 0x46, 0, 0, 0, 0] ++ le8 0 ++ le8 0 ++ le8 0 ++ le8 64 ++ le8 0 ++ le8 0 ++ le8 1 ++
    [1, 0, 0, 0, 5, 0, 0, 0] ++ le8 0 ++ le8 0 ++ le8 0 ++ le8 0 ++ le8 1 ++ le8 0

/-- `exec` of `textImage` without arguments by the first process. -/
def textRun : List MemEv :=
  [.call ⟨0, NPROC_pos⟩ (.exec ⟨true, 0, fun _ => 0, fun _ => none, some fun off n => (textImage.drop off).take n⟩)] ++
    List.replicate 14 (.next ⟨0, NPROC_pos⟩ false) ++ [.done ⟨0, NPROC_pos⟩]

/-- `sproc` of a process whose data are ones, to address 0. -/
def sprocZero : OutCall := .sproc 0 fun _ => 1

/-- Page 0 of the first process is one that the user may not write, and `sprocZero` writes it. -/
def writesText (s : MemSys) : Bool :=
  (s.k.slot ⟨0, NPROC_pos⟩).st = .live &&
    (s.k.slot ⟨0, NPROC_pos⟩).im.pagetable.any fun t =>
      (PageTable.get t 0).any fun e => !e.perm.w && sprocZero.run t (fun _ _ => 0) e.page 0 = 1

theorem textRun_ends : ∃ s, (memLts textLayout).Reachable s ∧ writesText s = true := by
  have hany : (Lts.replay (fun s e => s.step textLayout e) (fun _ _ => true) textStart textRun).any writesText = true := by
    decide +kernel
  cases hr : Lts.replay (fun s e => s.step textLayout e) (fun _ _ => true) textStart textRun with
  | none =>
    rw [hr] at hany
    cases hany
  | some s =>
    rw [hr] at hany
    have hreach := Lts.Reachable.replay (C := fun _ _ => True) (fun _ _ _ => trivial)
      (.of_init (show ((memLts textLayout).guard _).init _ from textStart_init)) hr
    exact ⟨s, hreach.of_guard, hany⟩

theorem text_written : ¬∀ (L : Layout) (s : MemSys) (p : Fin NPROC) (t : PageTable) (c : OutCall) (m : Ram), L.TrampolineBelow →
    (memLts L).Reachable s → (s.k.slot p).st = .live → (s.k.slot p).im.pagetable = some t → Ram.Protected t m (c.run t m) := by
  intro h
  obtain ⟨s, hs, hw⟩ := textRun_ends
  simp only [writesText, Bool.and_eq_true, decide_eq_true_eq, Option.any_eq_true, Bool.not_eq_true'] at hw
  obtain ⟨hst, t, ht, e, he, hperm, hbyte⟩ := hw
  have hprot := h textLayout s _ t sprocZero (fun _ _ => 0) (by unfold Layout.TrampolineBelow; decide) hs hst ht 0 (by decide) e he
    (.inl hperm)
  rw [congrFun hprot 0] at hbyte
  exact absurd hbyte UInt8.zero_ne_one

/-- Before `exec` the pages of the first process may be written. -/
theorem copies_where_writable_sprocZero : ∃ t, (textStart.k.slot ⟨0, by decide⟩).im.pagetable = some t ∧
    ∀ m, Ram.Protected t m (sprocZero.run t m) := by
  have hany : (textStart.k.slot ⟨0, by decide⟩).im.pagetable.any
      (fun t => (PageTable.get t 0).any fun e => e.perm.w) = true := by decide +kernel
  have hst : (textStart.k.slot ⟨0, by decide⟩).st = .live := by decide +kernel
  obtain ⟨t, ht, hw⟩ := (Option.any_eq_true ..).1 hany
  refine ⟨t, ht, (copies_where_writable (by unfold Layout.TrampolineBelow; decide) (.of_init textStart_init) hst ht sprocZero).2 ?_⟩
  intro k hk _ e he
  have hlen : sprocZero.bytes.length = 48 := List.length_ofFn
  have haddr : sprocZero.addr.toNat = 0 := rfl
  have hpage : (sprocZero.addr.toNat + k) / PGSIZE = 0 := Nat.div_eq_of_lt (by rw [haddr, PGSIZE]; omega)
  rw [hpage] at he
  rw [he] at hw
  exact hw

end Xv6
