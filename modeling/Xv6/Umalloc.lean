import Xv6.Lib.Bytes
import Xv6.Lib.Circle
import Xv6.Lib.Lts

/-!
# The allocator of user programs

`umalloc.c` over the bytes of a process.  A header has 16 bytes: the address of the next free block, and the size of its own block in
units of 16 bytes, a `uint`.  `sbrk` takes an `int` and returns the previous break, or fails.  Between the calls the program may write
what it likes into its allocations.  That memory above the break cannot be used is not part of the model.
-/

namespace Xv6

namespace Umalloc

open Bytes

/-! ### Headers -/

/-- `p->s.ptr`. -/
def ptr (m : Bytes) (p : Nat) : Nat := load m p 8

/-- `p->s.size`. -/
def size (m : Bytes) (p : Nat) : Nat := load m (p + 8) 4

def setPtr (m : Bytes) (p v : Nat) : Bytes := store m p 8 v

def setSize (m : Bytes) (p v : Nat) : Bytes := store m (p + 8) 4 v

/-- The headers at `a` and `b` do not overlap. -/
def Apart (a b : Nat) : Prop := a + 16 ≤ b ∨ b + 16 ≤ a

theorem Apart.symm {a b : Nat} (h : Apart a b) : Apart b a := Or.symm h

variable {m : Bytes} {p q v : Nat}

theorem ptr_lt (m : Bytes) (p : Nat) : ptr m p < 2 ^ 64 := load_lt m p 8

theorem size_lt (m : Bytes) (p : Nat) : size m p < 2 ^ 32 := load_lt m (p + 8) 4

theorem ptr_setPtr_self (hv : v < 2 ^ 64) : ptr (setPtr m p v) p = v := by
  rw [ptr, setPtr, load_store]
  exact Nat.mod_eq_of_lt hv

@[simp] theorem size_setPtr_self : size (setPtr m p v) p = size m p := load_store_of_apart m v (.inl (Nat.le_refl _))

@[simp] theorem size_setSize_self : size (setSize m p v) p = v % 2 ^ 32 := load_store ..

@[simp] theorem ptr_setSize_self : ptr (setSize m p v) p = ptr m p := load_store_of_apart m v (.inr (Nat.le_refl _))

theorem ptr_setPtr (h : Apart p q) : ptr (setPtr m p v) q = ptr m q :=
  load_store_of_apart m v (by unfold Apart at h; omega)

theorem size_setPtr (h : Apart p q) : size (setPtr m p v) q = size m q :=
  load_store_of_apart m v (by unfold Apart at h; omega)

theorem ptr_setSize (h : Apart p q) : ptr (setSize m p v) q = ptr m q :=
  load_store_of_apart m v (by unfold Apart at h; omega)

theorem size_setSize (h : Apart p q) : size (setSize m p v) q = size m q :=
  load_store_of_apart m v (by unfold Apart at h; omega)

/-- A header whose bytes have not changed. -/
theorem header_congr {m' : Bytes} (h : ∀ x, p ≤ x → x < p + 16 → m' x = m x) : ptr m' p = ptr m p ∧ size m' p = size m p :=
  ⟨load_congr fun x hx hlt => h x hx (by omega), load_congr fun x hx hlt => h x (by omega) (by omega)⟩

-- from here on headers are used through these lemmas only
attribute [irreducible] ptr size setPtr setSize

/-- `p + n` for a `Header *p`. -/
def plus (p n : Nat) : Nat := (p + 16 * n) % 2 ^ 64

/-- A call of `sbrk` by `morecore`: the bytes that it asks for, the argument, and the break before and after if the call succeeds. -/
structure SbrkCall where
  bytes : Nat
  n : Int
  grown : Option (Nat × Nat)

/-- The argument is the number of bytes, and the call succeeds only if the break was raised by it. -/
def SbrkCall.Exact (c : SbrkCall) : Prop := c.n = c.bytes ∧ ∀ a b, c.grown = some (a, b) → b = a + c.bytes

/-- The memory and the break of a process, with the calls of `sbrk`, newest first; `freep` is 0 before the first call. -/
structure St where
  m : Bytes
  freep : Nat := 0
  brk : Nat
  sbrks : List SbrkCall := []

/-- The `int` that a number becomes as an argument. -/
def toInt (n : Nat) : Int := if n % 2 ^ 32 < 2 ^ 31 then (n % 2 ^ 32 : Nat) else (n % 2 ^ 32 : Nat) - 2 ^ 32

/-- The break after `growproc(n)`, `none` for -1.  Growing fails where `ok` says so, or where there are no addresses left; `uvmdealloc`
does nothing if the new size, on 64 bits, is not smaller. -/
def growproc (ok : Bool) (brk : Nat) (n : Int) : Option Nat :=
  if n > 0 then (if ok = true ∧ brk + n.toNat < 2 ^ 64 then some (brk + n.toNat) else none)
  else if n < 0 then (if ((brk + n) % 2 ^ 64).toNat ≥ brk then some brk else some ((brk + n) % 2 ^ 64).toNat)
  else some brk

/-- `none` for -1. -/
def sbrk (ok : Bool) (bytes : Nat) (s : St) : Option Nat × St :=
  let n := toInt bytes
  match growproc ok s.brk n with
  | none => (none, { s with sbrks := ⟨bytes, n, none⟩ :: s.sbrks })
  | some brk => (some s.brk, { s with brk, sbrks := ⟨bytes, n, some (s.brk, brk)⟩ :: s.sbrks })

/-! ### `free` -/

/-- The loop of `free` stops at `p`. -/
def stopAt (m : Bytes) (bp p : Nat) : Bool :=
  (bp > p && bp < ptr m p) || (p ≥ ptr m p && (bp > p || bp < ptr m p))

/-- The block `bp` takes in the one above it, the successor of `p`. -/
def linkUp (m : Bytes) (bp p : Nat) : Bytes :=
  if plus bp (size m bp) = ptr m p then
    let m := setSize m bp (size m bp + size m (ptr m p))
    setPtr m bp (ptr m (ptr m p))
  else setPtr m bp (ptr m p)

/-- The block `p` takes in `bp`, or gets it as its successor. -/
def linkDown (m : Bytes) (bp p : Nat) : Bytes :=
  if plus p (size m p) = bp then
    let m := setSize m p (size m p + size m bp)
    setPtr m p (ptr m bp)
  else setPtr m p bp

/-- `none` if the loop takes more than `fuel` turns. -/
def free (fuel ap : Nat) (s : St) : Option St :=
  let bp := ap - 16
  match seek (ptr s.m) (stopAt s.m bp) fuel s.freep with
  | none => none
  | some p => some { s with m := linkDown (linkUp s.m bp p) bp p, freep := p }

/-! ### `malloc` -/

/-- The answer 0 is the null pointer. -/
def morecore (ok : Bool) (fuel nu : Nat) (s : St) : Option (Nat × St) :=
  let nu := if nu < 4096 then 4096 else nu
  match sbrk ok (nu * 16) s with
  | (none, s) => some (0, s)
  | (some hp, s) =>
    match free fuel (plus hp 1) { s with m := setSize s.m hp nu } with
    | none => none
    | some s => some (s.freep, s)

/-- The block `p` has room: it is used, or its tail. -/
def take (nunits prevp p : Nat) (s : St) : Nat × St :=
  if size s.m p = nunits then (plus p 1, { s with m := setPtr s.m prevp (ptr s.m p), freep := prevp })
  else
    let m := setSize s.m p (size s.m p - nunits)
    let p := plus p (size m p)
    (plus p 1, { s with m := setSize m p nunits, freep := prevp })

/-- The loop of `malloc`; `oks` says how the next calls of `sbrk` end. -/
def mallocLoop (nunits : Nat) : (Nat → Bool) → Nat → Nat → Nat → St → Option (Nat × St)
  | _, 0, _, _, _ => none
  | oks, fuel + 1, prevp, p, s =>
    if size s.m p ≥ nunits then some (take nunits prevp p s)
    else if p = s.freep then
      match morecore (oks 0) fuel nunits s with
      | none => none
      | some (p, s) =>
        if p = 0 then some (0, s) else mallocLoop nunits (fun i => oks (i + 1)) fuel p (ptr s.m p) s
    else mallocLoop nunits oks fuel p (ptr s.m p) s

/-- The units of 16 bytes for `nbytes` bytes and a header. -/
def nunits (nbytes : Nat) : Nat := ((nbytes + 16 - 1) / 16 + 1) % 2 ^ 32

/-- `base.s.ptr = freep = prevp = &base; base.s.size = 0`. -/
def initBase (base : Nat) (s : St) : St :=
  if s.freep = 0 then { s with m := setSize (setPtr s.m base base) base 0, freep := base } else s

def malloc (base : Nat) (oks : Nat → Bool) (nbytes fuel : Nat) (s : St) : Option (Nat × St) :=
  let s := initBase base s
  mallocLoop (nunits nbytes) oks fuel s.freep (ptr s.m s.freep) s

/-! ### A process -/

/-- The call returns `r`. -/
def Returns {α : Type} (f : Nat → Option α) (r : α) : Prop := ∃ k, ∀ fuel, k ≤ fuel → f fuel = some r

/-- The bytes of the units fit in an `int`. -/
def Fits (nbytes : Nat) : Prop := nunits nbytes * 16 < 2 ^ 31

/-- The process, and its live allocations with the sizes asked for. -/
structure Proc where
  s : St
  live : List (Nat × Nat) := []

inductive Ev
  | malloc (nbytes : Nat) (oks : Nat → Bool)
  | free (ap : Nat)
  -- the program writes into its allocations
  | write

/-- One call, or something that the program does between calls. -/
inductive Step (base : Nat) : Proc → Ev → Proc → Prop
  | malloc {x : Proc} {nbytes : Nat} {oks : Nat → Bool} {ap : Nat} {s : St} (hbytes : nbytes < 2 ^ 32)
      (h : Returns (fun fuel => Umalloc.malloc base oks nbytes fuel x.s) (ap, s)) :
      Step base x (.malloc nbytes oks) ⟨s, if ap = 0 then x.live else (ap, nbytes) :: x.live⟩
  | free {x : Proc} {ap nbytes : Nat} {s : St} (hlive : (ap, nbytes) ∈ x.live)
      (h : Returns (fun fuel => Umalloc.free fuel ap x.s) s) : Step base x (.free ap) ⟨s, x.live.erase (ap, nbytes)⟩
  | write {x : Proc} {m : Bytes} (h : ∀ a, (∀ c ∈ x.live, a < c.1 ∨ c.1 + c.2 ≤ a) → m a = x.s.m a) :
      Step base x .write { x with s := { x.s with m } }

/-- A block of the free list has room for `n` units. -/
def Room (x : Proc) (n : Nat) : Prop := x.s.freep ≠ 0 ∧ ∃ k, n ≤ size x.s.m ((ptr x.s.m)^[k] x.s.freep)

/-- The runs of a process whose break is `brk` at first. -/
def procLts (base brk : Nat) : Lts Proc Ev where
  init x := x.s.freep = 0 ∧ x.s.brk = brk ∧ x.s.sbrks = [] ∧ x.live = []
  step x e r := ∃ y, r = .ok y ∧ Step base x e y

end Umalloc

end Xv6
