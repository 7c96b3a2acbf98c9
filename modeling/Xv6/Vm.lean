import Xv6.Lib.Code
import Xv6.PageTable

/-!
# Physical pages and user address spaces

The functions of `vm.c`, and those of `proc.c` that build and free a page table, over the operations that processes make on
shared memory.  Each `MemOp` is one section under a lock: `kmem.lock`, `ftable.lock`, the lock of a pipe, `unused_lock` or
`wait_lock`.  Page tables belong to one process and are values here.  The bytes in user pages are not modelled; where the
kernel reads them the value is an argument from outside.
-/

namespace Xv6

/-- Open files of the system. -/
def NFILE : Nat := 100

/-- Maximum number of exec arguments. -/
def MAXARG : Nat := 64

/-- The page of the trampoline code, which the linker puts into the text of the kernel. -/
class KernelText where
  trampoline : Page

/-- The fields of `struct proc` that refer to memory and files; `none` is the null pointer. -/
structure Img where
  trapframe : Option Page := none
  pagetable : Option PageTable := none
  sz : Nat := 0
  ofile : Fin NOFILE → Option (Fin NFILE) := fun _ => none
  contp : Option Nat := none

inductive MemOp
  | kalloc
  | kfree (pa : Page)
  | filealloc
  | filedup (f : Fin NFILE)
  -- `fileclose` under `ftable.lock`; the answer is the end of a pipe that the last reference was to
  | fileput (f : Fin NFILE)
  -- `sys_open` fills in the file of an inode or a device
  | fileopen (f : Fin NFILE)
  -- `pipealloc` fills in its two files and the pipe
  | pipeinit (f0 f1 : Fin NFILE) (pi : Page)
  -- `pipeclose` under `pi->lock`; the answer says that both ends are closed now
  | pipeclose (pi : Page) (writable : Bool)
  -- `allocproc` takes a process off the unused list, `freeproc` puts it back
  | slotalloc
  | slotfree (q : Fin NPROC) (im : Img)
  -- `fork` makes its child runnable
  | publish (q : Fin NPROC) (im : Img) (parent : Option (Fin NPROC))
  -- `wait` looks for a zombie child of `p`; it stays one if its exit status could not be copied
  | reap (p : Fin NPROC) (copied : Bool)

def MemOp.Ans : MemOp → Type
  | kalloc => Option Page
  | kfree _ => Unit
  | filealloc => Option (Fin NFILE)
  | filedup _ => Unit
  | fileput _ => Option (Page × Bool)
  | fileopen _ => Unit
  | pipeinit .. => Unit
  | pipeclose .. => Bool
  | slotalloc => Option (Fin NPROC × Img)
  | slotfree .. => Unit
  | publish .. => Unit
  | reap .. => Option (Fin NPROC × Img)

abbrev Mem := Code MemOp.Ans

namespace Mem

variable {α : Type}

def panic (msg : String) : Mem α := Code.panic msg

/-- A trap in the kernel, as after the use of a null pointer. -/
def fault : Mem α := Code.panic "kerneltrap"

def kalloc : Mem (Option Page) := Code.op MemOp.kalloc

def kfree (pa : Page) : Mem Unit := Code.op (MemOp.kfree pa)

/-! ### `vm.c` -/

/-- One level of `walk`: the page-table page of entry `i`, new if there is none and `alloc` says so. -/
def child (t : PtPage (PtPage α)) (i : Fin 512) (alloc : Bool) : Mem (Option (PtPage α)) :=
  match t.ent i with
  | some c => pure (some c)
  | none =>
    if alloc then do
      match ← kalloc with
      | none => pure none
      | some page => pure (some (.empty page))
    else pure none

/-- The entry of `va`, `none` for a null pointer, and the tree with the pages that were added to it. -/
def walk (t : PageTable) (va : Nat) (alloc : Bool) : Mem (Option (Option Pte) × PageTable) :=
  if va ≥ MAXVA then panic "walk" else do
    match ← child t (PX 2 va) alloc with
    | none => pure (none, t)
    | some t1 =>
      match ← child t1 (PX 1 va) alloc with
      | none => pure (none, t.set (PX 2 va) t1)
      | some t0 => pure (some (t0.ent (PX 0 va)), t.set (PX 2 va) (t1.set (PX 1 va) t0))

def walkaddr (t : PageTable) (va : Nat) : Option Page :=
  if va ≥ MAXVA then none
  else
    match t.find va with
    | some (some e) => if e.perm.u then some e.page else none
    | _ => none

/-- The loop of `mappages` at the address `a`, with `n` pages after this one. -/
def mappagesLoop (perm : Perm) : Nat → Nat → Page → PageTable → Mem (Bool × PageTable)
  | n, a, pa, t => do
    let (pte, t) ← walk t a true
    match pte with
    | none => pure (false, t)
    | some (some _) => panic "mappages: remap"
    | some none =>
      let t := t.setPte a (some ⟨pa, perm⟩)
      match n with
      | 0 => pure (true, t)
      | n + 1 => mappagesLoop perm n (a + PGSIZE) (pa + 1) t

def mappages (t : PageTable) (va size : Nat) (pa : Page) (perm : Perm) : Mem (Bool × PageTable) :=
  if size = 0 then panic "mappages: size"
  else mappagesLoop perm ((PGROUNDDOWN (va + size - 1) - PGROUNDDOWN va) / PGSIZE) (PGROUNDDOWN va) pa t

/-- The loop of `uvmunmap` at the address `a`, with `n` pages left. -/
def uvmunmapLoop (doFree : Bool) : Nat → Nat → PageTable → Mem PageTable
  | 0, _, t => pure t
  | n + 1, a, t => do
    let (pte, t) ← walk t a false
    match pte with
    | none => panic "uvmunmap: walk"
    | some none => panic "uvmunmap: not mapped"
    | some (some e) =>
      if e.perm = {} then panic "uvmunmap: not a leaf"
      else do
        if doFree then kfree e.page
        uvmunmapLoop doFree n (a + PGSIZE) (t.setPte a none)

def uvmunmap (t : PageTable) (va npages : Nat) (doFree : Bool) : Mem PageTable :=
  if va % PGSIZE ≠ 0 then panic "uvmunmap: not aligned" else uvmunmapLoop doFree npages va t

def uvmcreate : Mem (Option PageTable) := do
  match ← kalloc with
  | none => pure none
  | some page => pure (some (.empty page))

/-- The new size and the page table. -/
def uvmdealloc (t : PageTable) (oldsz newsz : Nat) : Mem (Nat × PageTable) :=
  if newsz ≥ oldsz then pure (oldsz, t)
  else if PGROUNDUP newsz < PGROUNDUP oldsz then do
    let t ← uvmunmap t (PGROUNDUP newsz) ((PGROUNDUP oldsz - PGROUNDUP newsz) / PGSIZE) true
    pure (newsz, t)
  else pure (newsz, t)

/-- The loop of `uvmalloc` at the address `a`, with `n` pages left.  An address of `MAXVA` or more panics in `walk`, so that
`a` does not pass `2 ^ 64`. -/
def uvmallocLoop (oldsz newsz : Nat) (xperm : Perm) : Nat → Nat → PageTable → Mem (Nat × PageTable)
  | 0, _, t => pure (newsz, t)
  | n + 1, a, t => do
    match ← kalloc with
    | none =>
      let (_, t) ← uvmdealloc t a oldsz
      pure (0, t)
    | some mem =>
      let (ok, t) ← mappages t a PGSIZE mem { xperm with r := true, u := true }
      if ok then uvmallocLoop oldsz newsz xperm n (a + PGSIZE) t
      else do
        kfree mem
        let (_, t) ← uvmdealloc t a oldsz
        pure (0, t)

/-- The new size, or 0 on error, and the page table. -/
def uvmalloc (t : PageTable) (oldsz newsz : Nat) (xperm : Perm) : Mem (Nat × PageTable) :=
  if newsz < oldsz then pure (oldsz, t)
  else
    uvmallocLoop (PGROUNDUP oldsz) newsz xperm ((newsz - PGROUNDUP oldsz + PGSIZE - 1) / PGSIZE) (PGROUNDUP oldsz) t

/-- The loop of `freewalk` over the entries of a page; `f` frees what a valid entry refers to. -/
def freewalkLoop (f : α → Mem Unit) (t : PtPage α) : List (Fin 512) → Mem Unit
  | [] => pure ()
  | i :: is => do
    match t.ent i with
    | some c => f c
    | none => pure ()
    freewalkLoop f t is

/-- `freewalk` of one page. -/
def freewalkPage (f : α → Mem Unit) (t : PtPage α) : Mem Unit := do
  freewalkLoop f t (List.finRange 512)
  kfree t.page

/-- An entry of the lowest level: without `PTE_R`, `PTE_W` and `PTE_X` it would be taken for a page-table page. -/
def freewalkLeaf (e : Pte) : Mem Unit :=
  if e.perm.r || e.perm.w || e.perm.x then panic "freewalk: leaf" else fault

def freewalk (t : PageTable) : Mem Unit := freewalkPage (freewalkPage (freewalkPage freewalkLeaf)) t

def uvmfree (t : PageTable) (sz : Nat) : Mem Unit := do
  let t ← if sz > 0 then uvmunmap t 0 (PGROUNDUP sz / PGSIZE) true else pure t
  freewalk t

/-- The loop of `uvmcopy` at the address `i`, with `n` pages left. -/
def uvmcopyLoop (old : PageTable) : Nat → Nat → PageTable → Mem (Bool × PageTable)
  | 0, _, new => pure (true, new)
  | n + 1, i, new => do
    let (pte, _) ← walk old i false
    match pte with
    | none => panic "uvmcopy: pte should exist"
    | some none => panic "uvmcopy: page not present"
    | some (some e) =>
      match ← kalloc with
      | none =>
        let new ← uvmunmap new 0 (i / PGSIZE) true
        pure (false, new)
      | some mem =>
        let (ok, new) ← mappages new i PGSIZE mem e.perm
        if ok then uvmcopyLoop old n (i + PGSIZE) new
        else do
          kfree mem
          let new ← uvmunmap new 0 (i / PGSIZE) true
          pure (false, new)

def uvmcopy (old new : PageTable) (sz : Nat) : Mem (Bool × PageTable) :=
  uvmcopyLoop old ((sz + PGSIZE - 1) / PGSIZE) 0 new

def uvmclear (t : PageTable) (va : Nat) : Mem PageTable := do
  let (pte, t) ← walk t va false
  match pte with
  | none => panic "uvmclear"
  | some e => pure (t.setPte va (e.map fun e => { e with perm.u := false }))

/-- The loop of `copyout` and `copyin`: each page of the user's buffer has to be mapped for the user. -/
def copyLoop (t : PageTable) : Nat → Nat → Nat → Bool
  | 0, _, _ => true
  | fuel + 1, va, len =>
    if len = 0 then true
    else
      match walkaddr t (PGROUNDDOWN va) with
      | none => false
      | some _ => copyLoop t fuel ((PGROUNDDOWN va + PGSIZE) % 2 ^ 64) (len - min (PGSIZE - (va - PGROUNDDOWN va)) len)

/-- A turn of the loop copies at least one byte. -/
def copyout (t : PageTable) (dstva len : Nat) : Bool := copyLoop t len dstva len

def copyin (t : PageTable) (srcva len : Nat) : Bool := copyLoop t len srcva len

/-! ### Page tables of processes -/

def procPagetable [KernelText] (trapframe : Page) : Mem (Option PageTable) := do
  match ← uvmcreate with
  | none => pure none
  | some t =>
    let (ok, t) ← mappages t TRAMPOLINE PGSIZE KernelText.trampoline { r := true, x := true }
    if ok then do
      let (ok, t) ← mappages t TRAPFRAME PGSIZE trapframe { r := true, w := true }
      if ok then pure (some t)
      else do
        let t ← uvmunmap t TRAMPOLINE 1 false
        uvmfree t 0
        pure none
    else do
      uvmfree t 0
      pure none

def procFreepagetable (t : PageTable) (sz : Nat) : Mem Unit := do
  let t ← uvmunmap t TRAMPOLINE 1 false
  let t ← uvmunmap t TRAPFRAME 1 false
  uvmfree t sz

end Mem

end Xv6
