import Xv6.Console
import Xv6.PipeRead
import Xv6.Tables

/-!
# What a read transfers

`fileread` with its three back ends, the bytes of memory and the offset of the file.  The count is an `int` for pipes and consoles and
becomes a `uint` for `readi`.  A read of a process never answers more than the count, and writes no byte of a user but those of its
buffer; what it answers is added to the offset of a file that has one (`fileread_transfers`).

A negative count is a large one for `readi`.  Where it does not wrap around the offset, the rest of the file is read
(`readiLen_negative`).
-/

namespace Xv6

open PipeBuf (userByte)

/-- The types of `struct file`. -/
inductive FdType
  | none | pipe | inode | device
  deriving DecidableEq

/-- `struct file` without the references and pointers. -/
structure FdFile where
  type : FdType
  readable : UInt8
  off : UInt32
  major : Int16
  minor : Int16

/-- What the pointers of the file and its minor number lead to: the pipe, the consoles, and the size of the inode with the data of the
blocks that `bmap` finds. -/
structure Behind where
  pipe : PipeBuf
  cons : Int → ConsBuf
  size : UInt32
  bmap : Nat → Option (Nat → UInt8)

/-- What a turn of a loop that waits for input finds: the answer of `killed(myproc())`, and what is behind the file and the memory
after `sleep`. -/
structure ReadTurn where
  killed : Bool
  behind : Behind
  m : Ram

/-- What `fileread` returns and leaves. -/
structure ReadResult where
  a0 : Int
  f : FdFile
  behind : Behind
  m : Ram

/-- A turn of `consoleread`. -/
structure ConsTurn where
  killed : Bool
  x : ConsBuf
  m : Ram

/-- How the inner loop of `consoleread` ends. -/
inductive ConsWaited
  | input (turns : List ConsTurn) (x : ConsBuf) (m : Ram)
  | killed (x : ConsBuf) (m : Ram)
  | asleep

namespace FdFile

open ConsBuf (C slot)

/-- The inner loop of `consoleread`, for the turns given. -/
def waitInput : List ConsTurn → ConsBuf → Ram → ConsWaited
  | [], x, m => if x.r = x.w then .asleep else .input [] x m
  | turn :: turns, x, m =>
    if x.r = x.w then
      if turn.killed then .killed x m else waitInput turns turn.x turn.m
    else .input (turn :: turns) x m

/-- The outer loop of `consoleread` with `n` of `target` bytes left; `none` if it still sleeps after the turns. -/
def consolereadLoop (t : PageTable) (target : Nat) : Nat → Nat → List ConsTurn → ConsBuf → Ram → Option (Int × ConsBuf × Ram)
  | 0, _, _, x, m => some (target, x, m)
  | n + 1, dst, turns, x, m =>
    match waitInput turns x m with
    | .asleep => none
    | .killed x m => some (-1, x, m)
    | .input turns x m =>
      let c := x.buf (slot x.r)
      let x := { x with r := x.r + 1 }
      if c = C 'D' then
        -- saved for the next time
        if n + 1 < target then some (target - (n + 1), { x with r := x.r - 1 }, m) else some (target - (n + 1), x, m)
      else
        match Ram.copyout t dst [c] m with
        | (false, m) => some (target - (n + 1), x, m)
        | (true, m) =>
          if c = Ram.NEWLINE then some (target - n, x, m) else consolereadLoop t target n ((dst + 1) % 2 ^ 64) turns x m

def consoleread (t : PageTable) (dst : UInt64) (n : Int) (turns : List ConsTurn) (x : ConsBuf) (m : Ram) :
    Option (Int × ConsBuf × Ram) :=
  consolereadLoop t n.toNat n.toNat dst.toNat turns x m

/-- The loop of `readi` with `tot` of `n` bytes read, and the `tot` it ends with. -/
def readiLoop (t : PageTable) (bmap : Nat → Option (Nat → UInt8)) (n : Nat) : Nat → Nat → Nat → Nat → Ram → UInt32 × Ram
  | 0, tot, _, _, m => (.ofNat tot, m)
  | fuel + 1, tot, off, dst, m =>
    if tot < n then
      match bmap (off / BSIZE) with
      | none => (.ofNat tot, m)
      | some data =>
        let k := min (n - tot) (BSIZE - off % BSIZE)
        match Ram.copyout t dst ((List.range k).map fun i => data (off % BSIZE + i)) m with
        | (false, m) => (-1, m)
        | (true, m) => readiLoop t bmap n fuel (tot + k) (off + k) ((dst + k) % 2 ^ 64) m
    else (.ofNat tot, m)

/-- `readi` returns `tot` as an `int`. -/
def readi (t : PageTable) (size : UInt32) (bmap : Nat → Option (Nat → UInt8)) (dst : UInt64) (off n : UInt32) (m : Ram) : Int × Ram :=
  let n := Ram.readiLen size.toNat off.toNat n.toNat
  let (tot, m) := readiLoop t bmap n n 0 off.toNat dst.toNat m
  (tot.toInt32.toInt, m)

/-- `fileread`; `none` if it still sleeps after the turns.  The inode is locked while `f->off` is used. -/
def fileread (t : PageTable) (f : FdFile) (addr : UInt64) (n : Int32) (turns : List ReadTurn) (b : Behind) (m : Ram) :
    Option (Except String ReadResult) :=
  if f.readable = 0 then some (.ok ⟨-1, f, b, m⟩)
  else
    match f.type with
    | .pipe =>
      (PipeBuf.piperead t addr n.toInt (turns.map fun x => ⟨x.killed, x.behind.pipe, x.m⟩) b.pipe m).map fun (r, pi, m) =>
        .ok ⟨r, f, { b with pipe := pi }, m⟩
    | .device =>
      -- only the console has functions in `devsw`
      if f.major.toInt < 0 ∨ f.major.toInt ≥ NDEV ∨ f.major.toInt ≠ CONSOLE then some (.ok ⟨-1, f, b, m⟩)
      else
        let cnum := f.minor.toInt
        (consoleread t addr n.toInt (turns.map fun x => ⟨x.killed, x.behind.cons cnum, x.m⟩) (b.cons cnum) m).map fun (r, x, m) =>
          .ok ⟨r, f, { b with cons := Function.update b.cons cnum x }, m⟩
    | .inode =>
      let (r, m) := readi t b.size b.bmap addr f.off n.toUInt32 m
      some (.ok ⟨r, if r > 0 then { f with off := f.off + .ofInt r } else f, b, m⟩)
    | .none => some (.error "fileread")

end FdFile

/-- The offset goes up by what is returned if that is positive. -/
def FdFile.Advanced (f : FdFile) (r : ReadResult) : Prop := (r.f.off.toNat : Int) = f.off.toNat + if 0 < r.a0 then r.a0 else 0

/-- A read of `n` bytes to `addr` by process `p` returns at most `n`, and leaves the bytes of the users alone but for those of the
process from `addr` to `addr + n`.  Bytes that change while the process sleeps are left out. -/
structure ReadsWithin (s : MemSys) (p : Fin NPROC) (addr : UInt64) (n : Int32) (turns : List ReadTurn) (m : Ram)
    (r : ReadResult) : Prop where
  le : r.a0 ≤ max n.toInt 0
  frame : ∀ q t va, (s.k.slot q).st = .live ∨ (s.k.slot q).st = .zombie → (s.k.slot q).im.pagetable = some t →
    (q = p → va ∉ Set.Ico addr.toNat (addr.toNat + n.toInt.toNat)) → (∀ turn ∈ turns, userByte t turn.m va = userByte t m va) →
    userByte t r.m va = userByte t m va

/-! ### The bytes that are spared -/

namespace Ram

variable {t : PageTable} {a n page off : Nat}

/-- None of the addresses from `a` to `a + n` is that of the byte at `off` of the physical page. -/
def Spared (t : PageTable) (a n : Nat) (page : Page) (off : Nat) : Prop :=
  ∀ k < n, t.UserAt (a + k) → off = (a + k) % PGSIZE → ∀ e, t.get ((a + k) / PGSIZE) = some e → e.page ≠ page

theorem Spared.mono {n' : Nat} (h : Spared t a n page off) (hle : n' ≤ n) : Spared t a n' page off :=
  fun k hk => h k (Nat.lt_of_lt_of_le hk hle)

theorem Spared.next (h : Spared t a (n + 1) page off) : Spared t (a + 1) n page off := by
  intro k hk
  rw [show a + 1 + k = a + (k + 1) by omega]
  exact h (k + 1) (Nat.succ_lt_succ hk)

theorem Spared.put {bs : List UInt8} (h : Spared t a bs.length page off) (m : Ram) : (put t a bs m).2 page off = m page off := by
  by_contra hne
  obtain ⟨k, hk, huser, hoff, e, he, hpage⟩ := put_frame hne
  exact h k hk (huser k (Nat.le_refl k)) hoff e he hpage

end Ram

namespace FdFile

open Ram (Spared)

variable {t : PageTable} {page : Page} {off : Nat} {b : UInt8}

/-! ### Pipes -/

/-- The loop ends with `b` at `off` of the page. -/
def Leaves (page : Page) (off : Nat) (b : UInt8) : Waited → Prop
  | .ready _ m | .killed _ m => m page off = b
  | .asleep => True

theorem waitLoop_leaves {turns : List SleepTurn} {m : Ram} (hm : m page off = b) (ht : ∀ turn ∈ turns, turn.m page off = b)
    (pi : PipeBuf) : Leaves page off b (PipeBuf.waitLoop turns pi m) := by
  induction turns generalizing pi m with
  | nil =>
    unfold PipeBuf.waitLoop
    split
    · trivial
    · exact hm
  | cons turn turns ih =>
    unfold PipeBuf.waitLoop
    split
    · split
      · exact hm
      · exact ih (ht turn (List.mem_cons_self ..)) (fun x hx => ht x (List.mem_cons_of_mem _ hx)) turn.pi
    · exact hm

theorem piperead_within {addr : UInt64} {n : Int} {turns : List SleepTurn} {pi : PipeBuf} {m : Ram} {r : Int × PipeBuf × Ram}
    (h : PipeBuf.piperead t addr n turns pi m = some r) : r.1 ≤ max n 0 ∧
    ∀ page off b, m page off = b → (∀ turn ∈ turns, turn.m page off = b) → Spared t addr.toNat n.toNat page off →
      r.2.2 page off = b := by
  have hleaves : ∀ page off b, m page off = b → (∀ turn ∈ turns, turn.m page off = b) →
      Leaves page off b (PipeBuf.waitLoop turns pi m) := fun _ _ _ hm ht => waitLoop_leaves hm ht pi
  unfold PipeBuf.piperead at h
  cases hw : PipeBuf.waitLoop turns pi m with
  | asleep =>
    rw [hw] at h
    cases h
  | killed pi₁ m₁ =>
    rw [hw, Option.some.injEq] at h
    rw [hw] at hleaves
    subst h
    exact ⟨(show (-1 : Int) ≤ 0 by decide).trans (le_max_right ..), fun page off b hm ht _ => hleaves page off b hm ht⟩
  | ready pi₁ m₁ =>
    rw [hw, Option.some.injEq] at h
    rw [hw] at hleaves
    subst h
    obtain ⟨j, hj, -, -, hloop⟩ :=
      PipeBuf.pipereadLoop_spec (t := t) (n := n.toNat) (show addr.toNat + 0 < 2 ^ 64 from addr.toNat_lt) pi₁ m₁
    obtain ⟨pi₂, hloop⟩ : ∃ pi₂, PipeBuf.pipereadLoop t addr n.toNat 0 pi₁ m₁ =
        (j, pi₂, (Ram.put t addr.toNat (pi₁.unread.take j) m₁).2) := by
      rw [Nat.zero_add, Nat.add_zero] at hloop
      rcases hloop with ⟨-, hloop⟩ | ⟨-, -, hloop⟩ <;> exact ⟨_, hloop⟩
    rw [hloop]
    constructor
    · show (j : Int) ≤ max n 0
      omega
    · intro page off b hm ht hs
      have hlen : (pi₁.unread.take j).length ≤ n.toNat := by
        rw [List.length_take]
        omega
      exact ((hs.mono hlen).put m₁).trans (hleaves page off b hm ht)

/-! ### Consoles -/

/-- The loop ends with `b` at `off` of the page, and so do the turns that are left. -/
def InputLeaves (page : Page) (off : Nat) (b : UInt8) : ConsWaited → Prop
  | .input turns _ m => m page off = b ∧ ∀ turn ∈ turns, turn.m page off = b
  | .killed _ m => m page off = b
  | .asleep => True

theorem waitInput_leaves {turns : List ConsTurn} {m : Ram} (hm : m page off = b) (ht : ∀ turn ∈ turns, turn.m page off = b)
    (x : ConsBuf) : InputLeaves page off b (waitInput turns x m) := by
  induction turns generalizing x m with
  | nil =>
    unfold waitInput
    split
    · trivial
    · exact ⟨hm, ht⟩
  | cons turn turns ih =>
    unfold waitInput
    split
    · split
      · exact hm
      · exact ih (ht turn (List.mem_cons_self ..)) (fun x hx => ht x (List.mem_cons_of_mem _ hx)) turn.x
    · exact ⟨hm, ht⟩

theorem consolereadLoop_within {target n dst : Nat} {turns : List ConsTurn} {x : ConsBuf} {m : Ram} {r : Int × ConsBuf × Ram}
    (hd : dst < 2 ^ 64) (h : consolereadLoop t target n dst turns x m = some r) : r.1 ≤ target ∧
    ∀ page off b, m page off = b → (∀ turn ∈ turns, turn.m page off = b) → Spared t dst n page off → r.2.2 page off = b := by
  induction n generalizing dst turns x m with
  | zero =>
    cases h
    exact ⟨Int.le_refl _, fun _ _ _ hm _ _ => hm⟩
  | succ n ih =>
    have hleaves : ∀ page off b, m page off = b → (∀ turn ∈ turns, turn.m page off = b) →
        InputLeaves page off b (waitInput turns x m) := fun _ _ _ hm ht => waitInput_leaves hm ht x
    rw [consolereadLoop] at h
    cases hw : waitInput turns x m with
    | asleep =>
      rw [hw] at h
      cases h
    | killed x₁ m₁ =>
      rw [hw] at h hleaves
      cases h
      exact ⟨(show (-1 : Int) ≤ 0 by decide).trans (Int.natCast_nonneg _), fun page off b hm ht _ => hleaves page off b hm ht⟩
    | input turns₁ x₁ m₁ =>
      rw [hw] at h hleaves
      dsimp only at h
      split at h
      · -- control-D
        split at h <;> cases h <;> exact ⟨by dsimp only; omega, fun page off b hm ht _ => (hleaves page off b hm ht).1⟩
      · have hput : ∀ page off, Spared t dst (n + 1) page off →
            (Ram.put t dst [x₁.buf (ConsBuf.slot x₁.r)] m₁).2 page off = m₁ page off :=
          fun _ _ hs => (hs.mono (Nat.succ_le_succ (Nat.zero_le n))).put m₁
        rw [Ram.copyout_eq hd] at h
        cases hc : Ram.put t dst [x₁.buf (ConsBuf.slot x₁.r)] m₁ with
        | mk ok m₂ =>
          rw [hc] at h hput
          have hm₂ : ∀ page off b, m page off = b → (∀ turn ∈ turns, turn.m page off = b) → Spared t dst (n + 1) page off →
              m₂ page off = b := fun page off b hm ht hs => (hput page off hs).trans (hleaves page off b hm ht).1
          cases ok with
          | false =>
            cases h
            exact ⟨by dsimp only; omega, hm₂⟩
          | true =>
            dsimp only at h
            split at h
            · -- the end of the line
              cases h
              exact ⟨by dsimp only; omega, hm₂⟩
            · have hnext : (dst + 1) % 2 ^ 64 = dst + 1 := Ram.put_mod hd (congrArg Prod.fst hc)
              obtain ⟨hle, hrest⟩ := ih (Nat.mod_lt _ (by decide)) h
              refine ⟨hle, fun page off b hm ht hs => hrest page off b (hm₂ page off b hm ht hs) (hleaves page off b hm ht).2 ?_⟩
              rw [hnext]
              exact hs.next

/-! ### Inodes -/

/-- The memory is that of the loop without the count. -/
theorem readiLoop_snd (bmap : Nat → Option (Nat → UInt8)) (n fuel tot off dst : Nat) (m : Ram) :
    (readiLoop t bmap n fuel tot off dst m).2 = Ram.readiLoop t bmap n fuel tot off dst m := by
  induction fuel generalizing tot off dst m with
  | zero => rfl
  | succ fuel ih =>
    rw [readiLoop, Ram.readiLoop]
    by_cases hlt : tot < n
    · rw [if_pos hlt, if_pos hlt]
      cases bmap (off / BSIZE) with
      | none => rfl
      | some data =>
        dsimp only
        cases Ram.copyout t dst ((List.range (min (n - tot) (BSIZE - off % BSIZE))).map fun i => data (off % BSIZE + i)) m with
        | mk ok m =>
          cases ok with
          | false => rfl
          | true => exact ih ..
    · rw [if_neg hlt, if_neg hlt]

theorem readiLoop_fst (bmap : Nat → Option (Nat → UInt8)) {n tot : Nat} (htot : tot ≤ n) (fuel off dst : Nat) (m : Ram) :
    (readiLoop t bmap n fuel tot off dst m).1 = -1 ∨ ∃ k ≤ n, (readiLoop t bmap n fuel tot off dst m).1 = .ofNat k := by
  induction fuel generalizing tot off dst m with
  | zero => exact .inr ⟨tot, htot, rfl⟩
  | succ fuel ih =>
    rw [readiLoop]
    by_cases hlt : tot < n
    · rw [if_pos hlt]
      cases bmap (off / BSIZE) with
      | none => exact .inr ⟨tot, htot, rfl⟩
      | some data =>
        dsimp only
        split
        · exact .inl rfl
        · exact ih (by omega) ..
    · rw [if_neg hlt]
      exact .inr ⟨tot, htot, rfl⟩

theorem fileBytes_length_le (bmap : Nat → Option (Nat → UInt8)) (off n : Nat) : (OutCall.fileBytes bmap off n).length ≤ n := by
  induction n generalizing off with
  | zero => exact Nat.le_refl _
  | succ n ih =>
    rw [OutCall.fileBytes]
    split
    · exact Nat.zero_le _
    · exact Nat.succ_le_succ (ih _)

/-- The count is not negative, or does not get past the tests of `readi`. -/
def CountOk (off size : UInt32) (n : Int32) : Prop := 0 ≤ n.toInt ∨ -n.toInt ≤ off.toNat ∨ size ≤ off

theorem toInt_eq (n : UInt32) : n.toInt32.toInt = if n.toNat < 2 ^ 31 then (n.toNat : Int) else n.toNat - 2 ^ 32 := by
  have hcond := BitVec.toInt_eq_toNat_cond n.toBitVec
  rw [show n.toInt32.toInt = n.toBitVec.toInt from rfl, hcond, show n.toBitVec.toNat = n.toNat from rfl]
  split <;> split <;> omega

theorem toNat_toUInt32 (n : Int32) : (n.toUInt32.toNat : Int) = if n.toInt < 0 then n.toInt + 2 ^ 32 else n.toInt := by
  have heq := toInt_eq n.toUInt32
  have hlt := n.toUInt32.toNat_lt
  rw [Int32.toInt32_toUInt32] at heq
  split at heq <;> split <;> omega

theorem readiLen_within {off size : UInt32} {n : Int32} (h : CountOk off size n) :
    (Ram.readiLen size.toNat off.toNat n.toUInt32.toNat : Int) ≤ max n.toInt 0 ∧
      off.toNat + Ram.readiLen size.toNat off.toNat n.toUInt32.toNat < 2 ^ 32 := by
  have hn := toNat_toUInt32 n
  have hlt := n.toInt_lt
  have hle := n.le_toInt
  have hoff := off.toNat_lt
  have hsize := size.toNat_lt
  unfold CountOk at h
  rw [UInt32.le_iff_toNat_le] at h
  unfold Ram.readiLen
  split
  · omega
  · split <;> omega

theorem readi_within {off size : UInt32} {n : Int32} (h : CountOk off size n) (bmap : Nat → Option (Nat → UInt8)) (dst : UInt64)
    (m : Ram) : (readi t size bmap dst off n.toUInt32 m).1 ≤ max n.toInt 0 ∧
      off.toNat + (readi t size bmap dst off n.toUInt32 m).1 < 2 ^ 32 ∧
      ∀ page o, Spared t dst.toNat n.toInt.toNat page o → (readi t size bmap dst off n.toUInt32 m).2 page o = m page o := by
  obtain ⟨hle, hoff⟩ := readiLen_within h
  have hn := n.toInt_lt
  set k := Ram.readiLen size.toNat off.toNat n.toUInt32.toNat with hk
  have hread : readi t size bmap dst off n.toUInt32 m =
      ((readiLoop t bmap k k 0 off.toNat dst.toNat m).1.toInt32.toInt, (readiLoop t bmap k k 0 off.toNat dst.toNat m).2) := rfl
  have hcount : (readi t size bmap dst off n.toUInt32 m).1 ≤ k := by
    rw [hread, toInt_eq]
    rcases readiLoop_fst (t := t) bmap (Nat.zero_le k) k off.toNat dst.toNat m with h | ⟨j, hj, h⟩
    · rw [h, show (-1 : UInt32).toNat = 2 ^ 32 - 1 from rfl]
      split <;> omega
    · rw [h, UInt32.toNat_ofNat_of_lt' (by unfold UInt32.size; omega)]
      split <;> omega
  refine ⟨hcount.trans hle, by omega, fun page o hs => ?_⟩
  rw [hread]
  dsimp only
  rw [readiLoop_snd, OutCall.readiLoop_eq (Nat.le_add_left ..) _ dst.toNat_lt]
  apply (hs.mono ?_).put
  have := fileBytes_length_le bmap off.toNat (k - 0)
  omega

/-- For other counts, `readi` reads the rest of the file. -/
theorem readiLen_negative {off size : UInt32} {n : Int32} (h : ¬CountOk off size n) : n.toInt < 0 ∧
    Ram.readiLen size.toNat off.toNat n.toUInt32.toNat = min (size.toNat - off.toNat) n.toUInt32.toNat ∧
    0 < Ram.readiLen size.toNat off.toNat n.toUInt32.toNat := by
  have hn := toNat_toUInt32 n
  have hle := n.le_toInt
  have hsize := size.toNat_lt
  unfold CountOk at h
  rw [UInt32.le_iff_toNat_le] at h
  unfold Ram.readiLen
  rw [if_pos (by omega)] at hn
  rw [if_neg (by omega), Nat.mod_eq_of_lt (by omega)]
  refine ⟨by omega, ?_⟩
  split <;> omega

end FdFile

/-! ### Pages of users -/

namespace MemSys

variable {L : Layout} {s : MemSys}

/-- A page that is mapped for the user belongs to the process. -/
theorem Inv.user_mem (h : s.Inv L) {p : Fin NPROC} (hst : (s.k.slot p).st = .live ∨ (s.k.slot p).st = .zombie) {t : PageTable}
    (ht : (s.k.slot p).im.pagetable = some t) {i : Nat} (hi : i < 2 ^ 27) {e : Pte} (he : t.get i = some e) (hu : e.perm.u = true) :
    e.page ∈ (s.k.slot p).pages := by
  obtain ⟨own, hacc, -⟩ := h
  obtain ⟨page, t', -, ht', hs⟩ := (hacc.slots.ok p hst).shape
  obtain rfl : t = t' := Option.some.inj (ht.symm.trans ht')
  have hin : i < npages (s.k.slot p).im.sz := by
    by_contra hge
    by_cases hf : i = TFPAGE
    · subst hf
      rw [hs.frame] at he
      cases he
      cases hu
    · by_cases hr : i = TRPAGE
      · subst hr
        rw [hs.tramp] at he
        cases he
        cases hu
      · rw [hs.rest i hi (Nat.le_of_not_lt hge) hf hr] at he
        cases he
  rw [MemSlot.pages, if_neg (by rcases hst with h | h <;> simp [h]), ht, Option.elim_some]
  exact Multiset.mem_add.2 (.inr (Multiset.mem_add.2 (.inr (PageTable.mem_frames hin he))))

/-- No page belongs to two processes. -/
theorem Inv.pages_disjoint (h : s.Inv L) {p q : Fin NPROC} (hp : (s.k.slot p).st = .live ∨ (s.k.slot p).st = .zombie)
    (hq : (s.k.slot q).st = .live ∨ (s.k.slot q).st = .zombie) {page : Page} (hmem : page ∈ (s.k.slot p).pages)
    (hmem' : page ∈ (s.k.slot q).pages) : p = q := by
  obtain ⟨own, hacc, -⟩ := h
  by_contra hne
  have hsub := Finset.sum_le_sum_of_subset (f := fun q => Multiset.count (.page page) (s.k.slot q).res) (Finset.subset_univ {p, q})
  rw [Finset.sum_pair hne, ← MemSlot.count_pages (by rcases hp with h | h <;> simp [h]),
    ← MemSlot.count_pages (by rcases hq with h | h <;> simp [h])] at hsub
  have hone := hacc.heldPage_le page
  have hpos := Multiset.count_pos.2 hmem
  have hpos' := Multiset.count_pos.2 hmem'
  simp only [heldPage, held] at hone
  omega

/-- Bytes that are not in the buffer of the process are spared. -/
theorem Inv.spared (h : s.Inv L) (hL : L.TrampolineBelow) {p q : Fin NPROC} (hp : (s.k.slot p).st = .live) {t t' : PageTable}
    (ht : (s.k.slot p).im.pagetable = some t) (hq : (s.k.slot q).st = .live ∨ (s.k.slot q).st = .zombie)
    (ht' : (s.k.slot q).im.pagetable = some t') {a n va : Nat} (hout : q = p → va ∉ Set.Ico a (a + n)) {page : Page}
    (hw : Mem.walkaddr t' (PGROUNDDOWN va) = some page) : Ram.Spared t a n page (va % PGSIZE) := by
  intro k hk huser hoff e he hpage
  obtain ⟨hlt, e', he', hu', hpage'⟩ := Ram.walkaddr_eq_some.1 hw
  obtain ⟨hltk, e₀, he₀, hu⟩ := huser
  obtain rfl : e = e₀ := Option.some.inj (he.symm.trans he₀)
  have hmem := h.user_mem (.inl hp) ht (Ram.page_lt hltk) he hu
  have hmem' := h.user_mem hq ht' (Ram.page_lt hlt) he' hu'
  rw [hpage] at hmem
  rw [hpage'] at hmem'
  obtain rfl := h.pages_disjoint (.inl hp) hq hmem hmem'
  obtain rfl : t = t' := Option.some.inj (ht.symm.trans ht')
  have hdiv := h.distinct hL (.inl hp) ht _ (Ram.page_lt hltk) _ (Ram.page_lt hlt) e e' he he' (hpage.trans hpage'.symm)
  have hva : va = a + k := by
    rw [← Nat.div_add_mod va PGSIZE, ← Nat.div_add_mod (a + k) PGSIZE, hdiv, hoff]
  exact hout rfl ⟨by omega, by omega⟩

end MemSys

/-- A byte of a user's keeps its value if the physical byte does. -/
theorem userByte_congr {t : PageTable} {m m' : Ram} {va : Nat}
    (h : ∀ page, Mem.walkaddr t (PGROUNDDOWN va) = some page → m' page (va % PGSIZE) = m page (va % PGSIZE)) :
    userByte t m' va = userByte t m va := by
  unfold userByte
  cases hw : Mem.walkaddr t (PGROUNDDOWN va) with
  | none => rfl
  | some page => exact congrArg some (h page hw)

open FdFile

/-- The offset of an inode is moved. -/
theorem advanced_add {f : FdFile} {r : ReadResult} (hoff : f.off.toNat + r.a0 < 2 ^ 32)
    (hf : r.f.off = if r.a0 > 0 then f.off + .ofInt r.a0 else f.off) : f.Advanced r := by
  unfold FdFile.Advanced
  rw [hf]
  by_cases hpos : 0 < r.a0
  · obtain ⟨k, hk⟩ := Int.eq_ofNat_of_zero_le hpos.le
    rw [hk] at hpos hoff ⊢
    rw [if_pos hpos, if_pos hpos, PipeBuf.ofInt_natCast, UInt32.toNat_add, UInt32.toNat_ofNat']
    omega
  · rw [if_neg hpos, if_neg hpos, Int.add_zero]

/-- The answer, the offset, and a physical byte outside of the buffer. -/
theorem fileread_within {t : PageTable} {f : FdFile} {addr : UInt64} {n : Int32} {turns : List ReadTurn} {b : Behind} {m : Ram}
    (hn : f.type = .inode → CountOk f.off b.size n) {r : ReadResult} (h : fileread t f addr n turns b m = some (.ok r)) :
    r.a0 ≤ max n.toInt 0 ∧ (if f.type = .inode then f.Advanced r else r.f.off = f.off) ∧
      ∀ page o, (∀ turn ∈ turns, turn.m page o = m page o) → Ram.Spared t addr.toNat n.toInt.toNat page o → r.m page o = m page o := by
  have hneg : (-1 : Int) ≤ max n.toInt 0 := (show (-1 : Int) ≤ 0 by decide).trans (le_max_right ..)
  unfold fileread at h
  by_cases hread : f.readable = 0
  · rw [if_pos hread, Option.some.injEq, Except.ok.injEq] at h
    subst h
    refine ⟨hneg, ?_, fun _ _ _ _ => rfl⟩
    split
    · exact (Int.add_zero _).symm
    · rfl
  · rw [if_neg hread] at h
    cases hf : f.type with
    | none =>
      rw [hf] at h
      cases h
    | pipe =>
      rw [hf] at h
      obtain ⟨x, hx, hr⟩ := Option.map_eq_some_iff.1 h
      cases hr
      obtain ⟨hle, hspared⟩ := piperead_within hx
      refine ⟨hle, rfl, fun page o hturns hs => hspared page o _ rfl (fun turn hturn => ?_) hs⟩
      obtain ⟨turn', hturn', rfl⟩ := List.mem_map.1 hturn
      exact hturns turn' hturn'
    | device =>
      rw [hf] at h
      dsimp only at h
      split at h
      · cases h
        exact ⟨hneg, rfl, fun _ _ _ _ => rfl⟩
      · obtain ⟨x, hx, hr⟩ := Option.map_eq_some_iff.1 h
        cases hr
        obtain ⟨hle, hspared⟩ := consolereadLoop_within addr.toNat_lt hx
        rw [Int.ofNat_toNat] at hle
        refine ⟨hle, rfl, fun page o hturns hs => hspared page o _ rfl (fun turn hturn => ?_) hs⟩
        obtain ⟨turn', hturn', rfl⟩ := List.mem_map.1 hturn
        exact hturns turn' hturn'
    | inode =>
      rw [hf, Option.some.injEq, Except.ok.injEq] at h
      subst h
      obtain ⟨hle, hoff, hspared⟩ := readi_within (t := t) (hn hf) b.bmap addr m
      refine ⟨hle, ?_, fun page o _ hs => hspared page o hs⟩
      rw [if_pos rfl]
      exact advanced_add hoff (apply_ite FdFile.off ..)

/-- A read of a process transfers at most the count, to its buffer, and moves the offset of an inode by what it transfers; pipes and
devices have no offset. -/
theorem fileread_transfers {L : Layout} (hL : L.TrampolineBelow) {s : MemSys} (hs : (memLts L).Reachable s) {p : Fin NPROC}
    (hst : (s.k.slot p).st = .live) {t : PageTable} (ht : (s.k.slot p).im.pagetable = some t) {f : FdFile} {addr : UInt64} {n : Int32}
    {turns : List ReadTurn} {b : Behind} {m : Ram} (hn : f.type = .inode → CountOk f.off b.size n) {r : ReadResult}
    (hr : fileread t f addr n turns b m = some (.ok r)) :
    ReadsWithin s p addr n turns m r ∧ if f.type = .inode then f.Advanced r else r.f.off = f.off := by
  obtain ⟨hle, hoff, hmem⟩ := fileread_within hn hr
  refine ⟨⟨hle, fun q t' va hq ht' hout hturns => userByte_congr fun page hw => ?_⟩, hoff⟩
  apply hmem page (va % PGSIZE)
  · intro turn hturn
    have hsame := hturns turn hturn
    unfold userByte at hsame
    rw [hw] at hsame
    exact Option.some.inj hsame
  · exact (MemSys.Inv.reachable hs).spared hL hst ht hq ht' hout hw

/-- A file at offset 0 that may be read; the device is the first console. -/
def sampleFd (type : FdType) : FdFile := ⟨type, 1, 0, 1, 0⟩

/-- One byte in the pipe, one on the console, and one in the inode. -/
def oneByte : Behind := ⟨onePipe, fun _ => ⟨⟨0, 1⟩, 1, fun _ => 1⟩, 1, fun _ => some fun _ => 1⟩

/-- The first process, with one page, reads from `oneByte` to address 0 and gets one byte; the offset is `off` then. -/
def readsOne (type : FdType) (n : Int32) (off : UInt32) (t : PageTable) : Bool :=
  match fileread t (sampleFd type) 0 n [] oneByte fun _ _ => 0 with
  | some (.ok r) => r.a0 = 1 ∧ r.f.off = off
  | _ => false

theorem readsOne_reads {type : FdType} {n : Int32} {off : UInt32}
    (h : (textStart.k.slot ⟨0, by decide⟩).im.pagetable.any (readsOne type n off) = true) :
    ∃ t r, (textStart.k.slot ⟨0, by decide⟩).im.pagetable = some t ∧
      fileread t (sampleFd type) 0 n [] oneByte (fun _ _ => 0) = some (.ok r) ∧ r.a0 = 1 ∧ r.f.off = off := by
  obtain ⟨t, ht, hreads⟩ := (Option.any_eq_true ..).1 h
  unfold readsOne at hreads
  split at hreads
  · rename_i r hr
    exact ⟨t, r, ht, hr, of_decide_eq_true hreads⟩
  · cases hreads

theorem fileread_transfers_oneByte : ∃ t r, (textStart.k.slot ⟨0, by decide⟩).im.pagetable = some t ∧
    fileread t (sampleFd .inode) 0 1 [] oneByte (fun _ _ => 0) = some (.ok r) ∧ r.a0 = 1 ∧
    ReadsWithin textStart ⟨0, by decide⟩ 0 1 [] (fun _ _ => 0) r ∧ (sampleFd .inode).Advanced r := by
  have hst : (textStart.k.slot ⟨0, by decide⟩).st = .live := by decide +kernel
  obtain ⟨t, r, ht, hr, ha0, -⟩ := readsOne_reads
    (show (textStart.k.slot ⟨0, by decide⟩).im.pagetable.any (readsOne .inode 1 1) = true by decide +kernel)
  exact ⟨t, r, ht, hr, ha0, fileread_transfers (by unfold Layout.TrampolineBelow; decide) (.of_init textStart_init) hst ht
    (fun _ => .inl (by decide)) hr⟩

/-- The reads of a type transfer at most the count, and move the offset. -/
def AllTransfer (type : FdType) : Prop := ∀ (L : Layout) (s : MemSys) (p : Fin NPROC) (t : PageTable) (f : FdFile) (addr : UInt64)
  (n : Int32) (turns : List ReadTurn) (b : Behind) (m : Ram) (r : ReadResult), L.TrampolineBelow → (memLts L).Reachable s →
  (s.k.slot p).st = .live → (s.k.slot p).im.pagetable = some t → f.type = type → fileread t f addr n turns b m = some (.ok r) →
  ReadsWithin s p addr n turns m r ∧ f.Advanced r

theorem AllTransfer.readsOne {type : FdType} (h : AllTransfer type) (n : Int32) (off : UInt32)
    (hreads : (textStart.k.slot ⟨0, by decide⟩).im.pagetable.any (readsOne type n off) = true) :
    1 ≤ max n.toInt 0 ∧ off.toNat = 1 := by
  have hst : (textStart.k.slot ⟨0, by decide⟩).st = .live := by decide +kernel
  obtain ⟨t, r, ht, hr, ha0, hoff⟩ := readsOne_reads hreads
  obtain ⟨hwithin, hadv⟩ := h textLayout textStart _ t (sampleFd type) 0 n [] oneByte (fun _ _ => 0) r
    (by unfold Layout.TrampolineBelow; decide) (.of_init textStart_init) hst ht rfl hr
  have hle := hwithin.le
  unfold FdFile.Advanced at hadv
  rw [ha0] at hle hadv
  rw [hoff, show (sampleFd type).off.toNat = 0 from rfl] at hadv
  exact ⟨hle, by simpa using hadv⟩

/-- One byte from a pipe and one from a console leave the offset at 0; a read of -1 bytes gets the byte of the inode. -/
theorem reads_transfer_otherwise : ¬AllTransfer .pipe ∧ ¬AllTransfer .device ∧ ¬AllTransfer .inode := by
  refine ⟨fun h => ?_, fun h => ?_, fun h => ?_⟩
  · exact absurd (h.readsOne 1 0 (by decide +kernel)).2 (by decide)
  · exact absurd (h.readsOne 1 0 (by decide +kernel)).2 (by decide)
  · exact absurd (h.readsOne (-1) 1 (by decide +kernel)).1 (by decide)

end Xv6
