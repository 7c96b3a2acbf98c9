import Xv6.Vm

/-!
# System calls that use pages and open files

`fork`, `cfork`, `exec`, `sbrk`, `open`, `dup`, `pipe`, `close`, `exit` and `wait` as code over `MemOp`.  A call takes the memory of the calling
process as an `Img` and returns it in the `Outcome`.
-/

namespace Xv6

/-- What a call leaves: the memory of the caller, whether it returned an error, and whether the caller is a zombie now. -/
structure Outcome where
  im : Img
  ok : Bool := true
  exited : Bool := false

namespace Mem

/-! ### `file.c` and `pipe.c` -/

def filealloc : Mem (Option (Fin NFILE)) := Code.op MemOp.filealloc

def filedup (f : Fin NFILE) : Mem Unit := Code.op (MemOp.filedup f)

def fileput (f : Fin NFILE) : Mem (Option (Page × Bool)) := Code.op (MemOp.fileput f)

def fileopen (f : Fin NFILE) : Mem Unit := Code.op (MemOp.fileopen f)

def pipeinit (f0 f1 : Fin NFILE) (pi : Page) : Mem Unit := Code.op (MemOp.pipeinit f0 f1 pi)

def pipeput (pi : Page) (writable : Bool) : Mem Bool := Code.op (MemOp.pipeclose pi writable)

def pipeclose (pi : Page) (writable : Bool) : Mem Unit := do
  if ← pipeput pi writable then kfree pi else pure ()

def fileclose (f : Fin NFILE) : Mem Unit := do
  match ← fileput f with
  | some (pi, writable) => pipeclose pi writable
  | none => pure ()

def pipealloc : Mem (Option (Fin NFILE × Fin NFILE)) := do
  match ← filealloc with
  | none => pure none
  | some f0 =>
    match ← filealloc with
    | none =>
      fileclose f0
      pure none
    | some f1 =>
      match ← kalloc with
      | none =>
        fileclose f0
        fileclose f1
        pure none
      | some pi =>
        pipeinit f0 f1 pi
        pure (some (f0, f1))

/-- The first free descriptor. -/
def fdalloc (ofile : Fin NOFILE → Option (Fin NFILE)) : Option (Fin NOFILE) :=
  (List.finRange NOFILE).find? fun fd => (ofile fd).isNone

/-- The argument says that the path, its type and the mode let `sys_open` get to `filealloc`. -/
def sysOpen (im : Img) (found : Bool) : Mem Outcome :=
  if !found then pure { im, ok := false }
  else do
    match ← filealloc with
    | none => pure { im, ok := false }
    | some f =>
      match fdalloc im.ofile with
      | none =>
        fileclose f
        pure { im, ok := false }
      | some fd =>
        let ofile := Function.update im.ofile fd (some f)
        fileopen f
        pure { im := { im with ofile } }

/-- The descriptor and its file, as `argfd` finds them. -/
def argfd (im : Img) (fd : Int) : Option (Fin NOFILE × Fin NFILE) :=
  if h : 0 ≤ fd ∧ fd.toNat < NOFILE then (im.ofile ⟨fd.toNat, h.2⟩).map fun f => (⟨fd.toNat, h.2⟩, f) else none

def sysDup (im : Img) (fd : Int) : Mem Outcome :=
  match argfd im fd with
  | none => pure { im, ok := false }
  | some (_, f) =>
    match fdalloc im.ofile with
    | none => pure { im, ok := false }
    | some fd => do
      let ofile := Function.update im.ofile fd (some f)
      filedup f
      pure { im := { im with ofile } }

def sysPipe (im : Img) (fdarray : Nat) : Mem Outcome := do
  match im.pagetable with
  | none => fault
  | some t =>
    match ← pipealloc with
    | none => pure { im, ok := false }
    | some (rf, wf) =>
      match fdalloc im.ofile with
      | none =>
        fileclose rf
        fileclose wf
        pure { im, ok := false }
      | some fd0 =>
        let ofile := Function.update im.ofile fd0 (some rf)
        match fdalloc ofile with
        | none =>
          let ofile := Function.update ofile fd0 none
          fileclose rf
          fileclose wf
          pure { im := { im with ofile }, ok := false }
        | some fd1 =>
          let ofile := Function.update ofile fd1 (some wf)
          if copyout t fdarray 4 && copyout t ((fdarray + 4) % 2 ^ 64) 4 then pure { im := { im with ofile } }
          else do
            let ofile := Function.update (Function.update ofile fd0 none) fd1 none
            fileclose rf
            fileclose wf
            pure { im := { im with ofile }, ok := false }

def sysClose (im : Img) (fd : Int) : Mem Outcome :=
  match argfd im fd with
  | none => pure { im, ok := false }
  | some (fd, f) => do
    let ofile := Function.update im.ofile fd none
    fileclose f
    pure { im := { im with ofile } }

/-! ### `proc.c` -/

def slotalloc : Mem (Option (Fin NPROC × Img)) := Code.op MemOp.slotalloc

def slotfree (q : Fin NPROC) (im : Img) : Mem Unit := Code.op (MemOp.slotfree q im)

def publish (q : Fin NPROC) (im : Img) (parent : Option (Fin NPROC)) : Mem Unit := Code.op (MemOp.publish q im parent)

def reap (p : Fin NPROC) (copied : Bool) : Mem (Option (Fin NPROC × Img)) := Code.op (MemOp.reap p copied)

def freeproc (q : Fin NPROC) (im : Img) : Mem Unit := do
  match im.trapframe with
  | some page => kfree page
  | none => pure ()
  match im.pagetable with
  | some t => procFreepagetable t im.sz
  | none => pure ()
  slotfree q { im with trapframe := none, pagetable := none, sz := 0, contp := none }
  -- `acquire(&p->contp->lock)`
  match im.contp with
  | some _ => pure ()
  | none => fault

variable [KernelText]

/-- The new process, with its fields as `allocproc` leaves them. -/
def allocproc (contp : Option Nat) : Mem (Option (Fin NPROC × Img)) := do
  match ← slotalloc with
  | none => pure none
  | some (q, im) =>
    match ← kalloc with
    | none =>
      freeproc q { im with trapframe := none }
      pure none
    | some page =>
      match ← procPagetable page with
      | none =>
        freeproc q { im with trapframe := some page, pagetable := none }
        pure none
      | some t => pure (some (q, { im with trapframe := some page, pagetable := some t, contp }))

/-- `filedup` of the open files of the parent into those of the child. -/
def dupFiles (src : Fin NOFILE → Option (Fin NFILE)) :
    List (Fin NOFILE) → (Fin NOFILE → Option (Fin NFILE)) → Mem (Fin NOFILE → Option (Fin NFILE))
  | [], dst => pure dst
  | i :: is, dst =>
    match src i with
    | none => dupFiles src is dst
    | some f => do
      filedup f
      dupFiles src is (Function.update dst i (some f))

def fork (p : Fin NPROC) (im : Img) (contp : Option Nat) : Mem Outcome := do
  match ← allocproc contp with
  | none => pure { im, ok := false }
  | some (q, np) =>
    match im.pagetable, np.pagetable with
    | some old, some new =>
      let (ok, new) ← uvmcopy old new im.sz
      if ok then do
        let ofile ← dupFiles im.ofile (List.finRange NOFILE) np.ofile
        publish q { np with pagetable := some new, sz := im.sz, ofile } (some p)
        pure { im }
      else do
        freeproc q { np with pagetable := some new }
        pure { im, ok := false }
    | _, _ => fault

/-- The argument is the container of `alloccont`, if it found one. -/
def cfork (p : Fin NPROC) (im : Img) (contp : Option Nat) : Mem Outcome :=
  match contp with
  | none => pure { im, ok := false }
  | some c => fork p im (some c)

/-- `sz + n` on 64 bits, for the `int` argument of `sbrk`. -/
def addInt (sz : Nat) (n : Int) : Nat := ((sz + n) % 2 ^ 64).toNat

def growproc (im : Img) (n : Int) : Mem Outcome := do
  match im.pagetable with
  | none => fault
  | some t =>
    if n > 0 then do
      let (sz, t) ← uvmalloc t im.sz (addInt im.sz n) { w := true }
      if sz = 0 then pure { im := { im with pagetable := some t }, ok := false }
      else pure { im := { im with pagetable := some t, sz } }
    else if n < 0 then do
      let (sz, t) ← uvmdealloc t im.sz (addInt im.sz n)
      pure { im := { im with pagetable := some t, sz } }
    else pure { im }

/-- The loop of `exit` over the open files. -/
def closeFiles : List (Fin NOFILE) → (Fin NOFILE → Option (Fin NFILE)) → Mem (Fin NOFILE → Option (Fin NFILE))
  | [], ofile => pure ofile
  | fd :: fds, ofile =>
    match ofile fd with
    | none => closeFiles fds ofile
    | some f => do
      fileclose f
      closeFiles fds (Function.update ofile fd none)

def exit (p initproc : Fin NPROC) (im : Img) : Mem Outcome :=
  if p = initproc then panic "init exiting"
  else do
    let ofile ← closeFiles (List.finRange NOFILE) im.ofile
    pure { im := { im with ofile }, exited := true }

def wait (p : Fin NPROC) (im : Img) (addr : Nat) : Mem Outcome := do
  match im.pagetable with
  | none => fault
  | some t =>
    match ← reap p (addr = 0 || copyout t addr 4) with
    | none => pure { im, ok := false }
    | some (q, pp) =>
      freeproc q pp
      pure { im }

/-- The first process.  `uvmfirst` does not look at the result of `mappages`; the answer is `none` if there was no memory for it. -/
def userinit (contRoot : Nat) : Mem (Option (Fin NPROC)) := do
  match ← allocproc (some contRoot) with
  | none => fault
  | some (q, im) =>
    match im.pagetable, ← kalloc with
    | some t, some mem =>
      let (ok, t) ← mappages t 0 PGSIZE mem { r := true, w := true, x := true, u := true }
      if ok then do
        publish q { im with pagetable := some t, sz := PGSIZE } none
        pure (some q)
      else pure none
    | _, _ => fault

/-! ### `exec.c` -/

/-- The little-endian number of `w` bytes at offset `off`. -/
def field (bs : List UInt8) (off w : Nat) : Nat := ((bs.drop off).take w).foldr (fun b n => b.toNat + 256 * n) 0

def ELF_MAGIC : Nat := 0x464C457F

def ELF_PROG_LOAD : Nat := 1

/-- The program header that `exec` reads. -/
structure Proghdr where
  type : Nat
  flags : Nat
  off : Nat
  vaddr : Nat
  filesz : Nat
  memsz : Nat
  deriving DecidableEq

def Proghdr.ofBytes (bs : List UInt8) : Proghdr where
  type := field bs 0 4
  flags := field bs 4 4
  off := field bs 8 8
  vaddr := field bs 16 8
  filesz := field bs 32 8
  memsz := field bs 40 8

def flags2perm (flags : Nat) : Perm := { x := flags.testBit 0, w := flags.testBit 1 }

/-- `readi(ip, 0, dst, off, n)`: the bytes that are read. -/
abbrev Readi := Nat → Nat → List UInt8

/-- The loop of `loadseg` with `n` pages left: `false` if `readi` fails. -/
def loadsegLoop (t : PageTable) (va : Nat) (readi : Readi) (offset sz : Nat) : Nat → Nat → Mem Bool
  | 0, _ => pure true
  | n + 1, i =>
    match walkaddr t ((va + i) % 2 ^ 64) with
    | none => panic "loadseg: address should exist"
    | some _ =>
      let m := if sz - i < PGSIZE then sz - i else PGSIZE
      if (readi ((offset + i) % 2 ^ 32) m).length ≠ m then pure false else loadsegLoop t va readi offset sz n (i + PGSIZE)

/-- `offset` and `sz` are `uint`. -/
def loadseg (t : PageTable) (va : Nat) (readi : Readi) (offset sz : Nat) : Mem Bool :=
  loadsegLoop t va readi (offset % 2 ^ 32) (sz % 2 ^ 32) ((sz % 2 ^ 32 + PGSIZE - 1) / PGSIZE) 0

/-- The loop of `exec` over the program headers with `n` left: `false` for `goto bad`, the page table and its size. -/
def loadLoop (readi : Readi) : Nat → Nat → PageTable → Nat → Mem (Bool × PageTable × Nat)
  | 0, _, t, sz => pure (true, t, sz)
  | n + 1, off, t, sz =>
    let bs := readi (off % 2 ^ 32) 56
    let ph := Proghdr.ofBytes bs
    if bs.length ≠ 56 then pure (false, t, sz)
    else if ph.type ≠ ELF_PROG_LOAD then loadLoop readi n (off + 56) t sz
    else if ph.memsz < ph.filesz then pure (false, t, sz)
    else if (ph.vaddr + ph.memsz) % 2 ^ 64 < ph.vaddr then pure (false, t, sz)
    else if ph.vaddr % PGSIZE ≠ 0 then pure (false, t, sz)
    else do
      let (sz1, t) ← uvmalloc t sz ((ph.vaddr + ph.memsz) % 2 ^ 64) (flags2perm ph.flags)
      if sz1 = 0 then pure (false, t, sz)
      else do
        if ← loadseg t ph.vaddr readi ph.off ph.filesz then loadLoop readi n (off + 56) t sz1
        else pure (false, t, sz1)

/-- `sp - n`, then aligned down to 16 bytes, on 64 bits. -/
def pushSp (sp n : Nat) : Nat :=
  let sp := (sp + 2 ^ 64 - n) % 2 ^ 64
  sp - sp % 16

/-- The loop of `exec` that pushes the argument strings, of which the lengths are given, and the vector of pointers. -/
def pushArgs (t : PageTable) (stackbase : Nat) : List Nat → Nat → Nat → Bool
  | [], argc, sp =>
    let sp := pushSp sp ((argc + 1) * 8)
    if sp < stackbase then false else copyout t sp ((argc + 1) * 8)
  | len :: lens, argc, sp =>
    if argc ≥ MAXARG then false
    else
      let sp := pushSp sp (len + 1)
      if sp < stackbase then false
      else if copyout t sp (len + 1) then pushArgs t stackbase lens (argc + 1) sp
      else false

/-- `bad:` in `exec` once there is a page table. -/
def execBad (im : Img) (t : PageTable) (sz : Nat) : Mem Outcome := do
  procFreepagetable t sz
  pure { im, ok := false }

/-- The argument `inode` is what `readi` reads from the file, if `namei` finds it; `lens` are the lengths of the arguments. -/
def exec (im : Img) (inode : Option Readi) (lens : List Nat) : Mem Outcome := do
  match inode with
  | none => pure { im, ok := false }
  | some readi =>
    let elf := readi 0 64
    if elf.length ≠ 64 ∨ field elf 0 4 ≠ ELF_MAGIC then pure { im, ok := false }
    else
      match ← procPagetable (im.trapframe.getD 0) with
      | none => pure { im, ok := false }
      | some t =>
        let (ok, t, sz) ← loadLoop readi (field elf 56 2) (field elf 32 8) t 0
        if !ok then execBad im t sz
        else do
          let sz := PGROUNDUP sz
          let (sz1, t) ← uvmalloc t sz ((sz + 2 * PGSIZE) % 2 ^ 64) { w := true }
          if sz1 = 0 then execBad im t sz
          else do
            let t ← uvmclear t (sz1 - 2 * PGSIZE)
            if pushArgs t (sz1 - PGSIZE) lens 0 sz1 then
              match im.pagetable with
              | none => fault
              | some old =>
                procFreepagetable old im.sz
                pure { im := { im with pagetable := some t, sz := sz1 } }
            else execBad im t sz1

/-- What `sys_exec` gets from outside: whether `argstr` could fetch the path, the user's vector `uargv`, the word at a user
address, the length of the string at a user address if `fetchstr` could fetch it, and the file. -/
structure ExecArgs where
  path : Bool
  uargv : Nat
  word : Nat → Nat
  str : Nat → Option Nat
  inode : Option Readi

/-- The checks of `fetchaddr`. -/
def fetchaddr (t : PageTable) (sz addr : Nat) : Bool :=
  !(addr ≥ sz || (addr + 8) % 2 ^ 64 > sz) && copyin t addr 8

/-- The loop of `sys_exec` over the arguments with `n` entries of `argv` left: `false` for `goto bad`, and the pages and string
lengths of `argv` so far. -/
def argvLoop (t : PageTable) (sz : Nat) (a : ExecArgs) : Nat → Nat → List (Page × Nat) → Mem (Bool × List (Page × Nat))
  | 0, _, argv => pure (false, argv)
  | n + 1, i, argv =>
    let addr := (a.uargv + 8 * i) % 2 ^ 64
    if !fetchaddr t sz addr then pure (false, argv)
    else if a.word addr = 0 then pure (true, argv)
    else do
      match ← kalloc with
      | none => pure (false, argv)
      | some page =>
        match a.str (a.word addr) with
        | none => pure (false, argv ++ [(page, 0)])
        | some len => argvLoop t sz a n (i + 1) (argv ++ [(page, len)])

def freeArgv : List (Page × Nat) → Mem Unit
  | [] => pure ()
  | (page, _) :: argv => do
    kfree page
    freeArgv argv

def sysExec (im : Img) (a : ExecArgs) : Mem Outcome := do
  match im.pagetable with
  | none => fault
  | some t =>
    if !a.path then pure { im, ok := false }
    else do
      let (ok, argv) ← argvLoop t im.sz a MAXARG 0 []
      if ok then do
        let r ← exec im a.inode (argv.map Prod.snd)
        freeArgv argv
        pure r
      else do
        freeArgv argv
        pure { im, ok := false }

end Mem

end Xv6
