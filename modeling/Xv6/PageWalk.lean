import Mathlib.Data.BitVec
import Xv6.Lib.Radix
import Xv6.PageTable

/-!
# Page tables in memory

`walk`, `mappages` and `uvmunmap` of `vm.c` on 64-bit words.  A page-table page is given by its address, and `word` holds its 512
entries; the bytes of other pages are not looked at.  What `kalloc` returns is given in advance by `answers`; the pages that it
returns, and those that are freed, are filled with junk as `kalloc.c` does.  A pointer to an entry is the page and the index.
-/

namespace Xv6

open Function (update)

/-- Valid. -/
def PTE_V : BitVec 64 := 1#64

/-- Shift a physical address to the right place for a PTE. -/
def PA2PTE (pa : BitVec 64) : BitVec 64 := (pa >>> 12) <<< 10

def PTE2PA (pte : BitVec 64) : BitVec 64 := (pte >>> 10) <<< 12

def PTE_FLAGS (pte : BitVec 64) : BitVec 64 := pte &&& 0x3ff#64

structure Kmem where
  word : BitVec 64 → Fin 512 → BitVec 64
  -- what the next calls of `kalloc` return
  answers : List (Option (BitVec 64))

namespace Kmem

/-- The words of a page that `memset` fills with one byte. -/
def memset (s : Kmem) (pa w : BitVec 64) : Kmem := { s with word := update s.word pa fun _ => w }

/-- `*pte`. -/
def load (s : Kmem) (pte : BitVec 64 × Fin 512) : BitVec 64 := s.word pte.1 pte.2

/-- `*pte = w`. -/
def put (s : Kmem) (pte : BitVec 64 × Fin 512) (w : BitVec 64) : Kmem := { s with word := Radix.store s.word pte.1 pte.2 w }

def kalloc (s : Kmem) : Option (BitVec 64) × Kmem :=
  match s.answers with
  | some pa :: l => (some pa, { s with answers := l }.memset pa 0x0505050505050505#64)
  | none :: l => (none, { s with answers := l })
  | [] => (none, s)

/-- The kernel ends at `kend`. -/
def kfree (s : Kmem) (kend : Nat) (pa : BitVec 64) : Except String Kmem :=
  if pa.toNat % PGSIZE ≠ 0 ∨ pa.toNat < kend ∨ pa.toNat ≥ PHYSTOP then .error "kfree"
  else .ok (s.memset pa 0x0101010101010101#64)

/-- `if(do_free) kfree(pa)`. -/
def freeIf (s : Kmem) (doFree : Bool) (kend : Nat) (pa : BitVec 64) : Except String Kmem := if doFree then s.kfree kend pa else .ok s

/-- The loop of `walk`, from `level` on. -/
def walkLoop (va : Nat) (alloc : Bool) : Nat → BitVec 64 → Kmem → Option (BitVec 64) × Kmem
  | 0, pagetable, s => (some pagetable, s)
  | level + 1, pagetable, s =>
    let pte := (pagetable, PX (level + 1) va)
    if s.load pte &&& PTE_V ≠ 0 then walkLoop va alloc level (PTE2PA (s.load pte)) s
    else if alloc then
      match s.kalloc with
      | (none, s) => (none, s)
      | (some page, s) => walkLoop va alloc level page ((s.memset page 0).put pte (PA2PTE page ||| PTE_V))
    else (none, s)

def walk (s : Kmem) (pagetable : BitVec 64) (va : Nat) (alloc : Bool) : Except String (Option (BitVec 64 × Fin 512) × Kmem) :=
  if va ≥ MAXVA then .error "walk"
  else
    let (page, s) := walkLoop va alloc 2 pagetable s
    .ok (page.map (·, PX 0 va), s)

/-- The loop of `mappages`.  As `walk` refuses addresses from `MAXVA` on, the fuel is enough. -/
def mappagesLoop (pagetable : BitVec 64) (last : Nat) (perm : BitVec 64) : Nat → Nat → BitVec 64 → Kmem → Except String (Int × Kmem)
  | 0, _, _, _ => .error "fuel"
  | fuel + 1, a, pa, s => do
    let (pte, s) ← s.walk pagetable a true
    match pte with
    | none => .ok (-1, s)
    | some pte =>
      if s.load pte &&& PTE_V ≠ 0 then .error "mappages: remap"
      else
        let s := s.put pte (PA2PTE pa ||| perm ||| PTE_V)
        if a = last then .ok (0, s) else mappagesLoop pagetable last perm fuel (a + PGSIZE) (pa + 4096#64) s

def mappages (s : Kmem) (pagetable : BitVec 64) (va size : Nat) (pa perm : BitVec 64) : Except String (Int × Kmem) :=
  if size = 0 then .error "mappages: size"
  else mappagesLoop pagetable (PGROUNDDOWN ((va + size - 1) % 2 ^ 64)) perm (MAXVA / PGSIZE + 1) (PGROUNDDOWN va) pa s

/-- The loop of `uvmunmap`, below `last`. -/
def uvmunmapLoop (kend : Nat) (pagetable : BitVec 64) (last : Nat) (doFree : Bool) : Nat → Nat → Kmem → Except String Kmem
  | 0, _, _ => .error "fuel"
  | fuel + 1, a, s =>
    if a < last then do
      let (pte, s) ← s.walk pagetable a false
      match pte with
      | none => .error "uvmunmap: walk"
      | some pte =>
        if s.load pte &&& PTE_V = 0 then .error "uvmunmap: not mapped"
        else if PTE_FLAGS (s.load pte) = PTE_V then .error "uvmunmap: not a leaf"
        else do
          let s ← s.freeIf doFree kend (PTE2PA (s.load pte))
          uvmunmapLoop kend pagetable last doFree fuel (a + PGSIZE) (s.put pte 0)
    else .ok s

def uvmunmap (s : Kmem) (kend : Nat) (pagetable : BitVec 64) (va npages : Nat) (doFree : Bool) : Except String Kmem :=
  if va % PGSIZE ≠ 0 then .error "uvmunmap: not aligned"
  else uvmunmapLoop kend pagetable ((va + npages * PGSIZE) % 2 ^ 64) doFree (MAXVA / PGSIZE + 1) va s

end Kmem

/-! ### The fields of an entry -/

theorem testBit_of_mod {n i k : Nat} (h : n % 2 ^ k = 0) (hi : i < k) : n.testBit i = false := by
  have := Nat.testBit_mod_two_pow n k i
  simpa [h, hi] using this.symm

theorem getLsbD_of_lt {x : BitVec 64} {k i : Nat} (h : x.toNat < 2 ^ k) (hi : k ≤ i) : x.getLsbD i = false :=
  Nat.testBit_lt_two_pow (Nat.lt_of_lt_of_le h (Nat.pow_le_pow_right (by decide) hi))

theorem getLsbD_flags : ∀ i < 64, (0x3ff#64).getLsbD i = decide (i < 10) := by decide

/-- The address comes back if it is aligned. -/
theorem PTE2PA_PA2PTE {pa perm : BitVec 64} (h : pa.toNat % PGSIZE = 0) (hp : perm.toNat < 2 ^ 10) :
    PTE2PA (PA2PTE pa ||| perm ||| PTE_V) = pa := by
  apply BitVec.eq_of_getLsbD_eq
  intro i hi
  by_cases h12 : i < 12
  · have hpa : pa.getLsbD i = false := testBit_of_mod (k := 12) h h12
    simp only [PTE2PA, BitVec.getLsbD_shiftLeft, h12, decide_true, Bool.not_true, Bool.and_false, Bool.false_and, hpa]
  · have h1 : 10 + (i - 12) < 64 := by omega
    have h2 : ¬ 10 + (i - 12) < 10 := by omega
    have h3 : 12 + (i - 12) = i := by omega
    have h4 := getLsbD_of_lt hp (i := 10 + (i - 12)) (by omega)
    rw [BitVec.getLsbD_eq_getElem h1] at h4
    simp [PTE2PA, PA2PTE, PTE_V, hi, h12, h1, h2, h3, h4]

/-- The address of a page-table page. -/
theorem PTE2PA_table {pa : BitVec 64} (h : pa.toNat % PGSIZE = 0) : PTE2PA (PA2PTE pa ||| PTE_V) = pa := by
  have : PTE2PA (PA2PTE pa ||| 0#64 ||| PTE_V) = pa := PTE2PA_PA2PTE h (by decide)
  rwa [BitVec.or_zero] at this

theorem valid_or (x : BitVec 64) : (x ||| PTE_V) &&& PTE_V ≠ 0 := by
  intro h
  have := congrArg (fun y => y.getLsbD 0) h
  simp [PTE_V] at this

theorem PTE_FLAGS_PA2PTE {pa perm : BitVec 64} (hp : perm.toNat < 2 ^ 10) : PTE_FLAGS (PA2PTE pa ||| perm ||| PTE_V) = perm ||| PTE_V := by
  apply BitVec.eq_of_getLsbD_eq
  intro i hi
  rw [PTE_FLAGS, BitVec.getLsbD_and, getLsbD_flags i hi]
  by_cases h10 : i < 10
  · simp [PA2PTE, h10]
  · have h1 := getLsbD_of_lt hp (i := i) (by omega)
    have h2 : PTE_V.getLsbD i = false := getLsbD_of_lt (k := 1) (by decide) (by omega)
    simp [h10, h1, h2]

end Xv6
