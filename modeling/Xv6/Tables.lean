import Xv6.Dir
import Xv6.Lib.Code
import Xv6.Lib.Lts
import Xv6.Proc

/-!
# Indices into the tables of the kernel

The arrays `proc`, `cons`, `devsw` and `ofile` and the code that indexes them: the system calls of `sysfile.c` and `sysproc.c` with
`fileread` and `filewrite`, the console of `console.c` and its interrupt handler.  An operation is one access to the shared state,
and `use` is made where the code takes the address of an element.  Data that no index comes from is not modelled: a value that
the code finds in it comes from outside (`any`), and so does the number of rounds of a loop that waits for it.

A process may give any arguments.  What it gives to `sproc` and `consw` is used as an index, and so is the minor number of a console
that it reads from.  As long as these three are in range, every index is (`tables_in_range`).
-/

namespace Xv6

open Function (update)

/-- Maximum number of consoles. -/
def NCONS : Int := 4

def CONSOLE : Int := 1

inductive KArray
  | proc
  | cons
  | devsw
  | ofile
  deriving DecidableEq

def KArray.size : KArray → Int
  | proc => NPROC
  | cons => NCONS
  | devsw => NDEV
  | ofile => NOFILE

/-- `struct file`, where a pipe or an inode is not looked into. -/
inductive TabFile
  | none
  | pipe (readable writable : Bool)
  | inode (readable writable : Bool)
  | device (readable writable : Bool) (major minor : Int)

inductive TabOp
  -- `&table[i]`
  | use (t : KArray) (i : Int)
  | getConscur
  | setConscur (n : Int)
  -- `ofile[fd]` of process `p`
  | getOfile (p : Slot) (fd : Nat)
  | setOfile (p : Slot) (fd : Nat) (f : Option Nat)
  | getFile (f : Nat)
  | setFile (f : Nat) (x : TabFile)
  -- the major and the minor number of an inode that is a device
  | getNode (i : Inum)
  | setNode (i : Inum) (x : Option (Int × Int))
  -- `consoleread` is called
  | enter (cnum : Int)
  | any

def TabOp.Ans : TabOp → Type
  | use .. => Unit
  | getConscur => Int
  | setConscur _ => Unit
  | getOfile .. => Option Nat
  | setOfile .. => Unit
  | getFile _ => TabFile
  | setFile .. => Unit
  | getNode _ => Option (Int × Int)
  | setNode .. => Unit
  | enter _ => Unit
  | any => Int

abbrev Tab := Code TabOp.Ans

namespace Tab

def use (t : KArray) (i : Int) : Tab Unit := Code.op (TabOp.use t i)

def getConscur : Tab Int := Code.op TabOp.getConscur

def setConscur (n : Int) : Tab Unit := Code.op (TabOp.setConscur n)

def getOfile (p : Slot) (fd : Nat) : Tab (Option Nat) := Code.op (TabOp.getOfile p fd)

def setOfile (p : Slot) (fd : Nat) (f : Option Nat) : Tab Unit := Code.op (TabOp.setOfile p fd f)

def getFile (f : Nat) : Tab TabFile := Code.op (TabOp.getFile f)

def setFile (f : Nat) (x : TabFile) : Tab Unit := Code.op (TabOp.setFile f x)

def getNode (i : Inum) : Tab (Option (Int × Int)) := Code.op (TabOp.getNode i)

def setNode (i : Inum) (x : Option (Int × Int)) : Tab Unit := Code.op (TabOp.setNode i x)

def any : Tab Int := Code.op TabOp.any

/-- A loop of `n` rounds. -/
def rounds (body : Tab Unit) : Nat → Tab Unit
  | 0 => pure ()
  | n + 1 => do
    body
    rounds body n

/-- The loop `for(i = 0; i < n; i++)` from `i` on, with `k` rounds to go. -/
def eachFrom (body : Nat → Tab Unit) : Nat → Nat → Tab Unit
  | 0, _ => pure ()
  | k + 1, i => do
    body i
    eachFrom body k (i + 1)

/-- `for(p = proc; p < &proc[NPROC]; p++)`. -/
def procLoop : Tab Unit := eachFrom (fun i => use .proc i) NPROC 0

/-! ### `console.c` -/

/-- `cons[conscur]`. -/
def current : Tab Unit := do
  use .cons (← getConscur)

/-- The loop of `consolewrite`. -/
def consolewriteLoop (cnum : Int) : Nat → Tab Unit
  | 0 => pure ()
  | n + 1 => do
    -- `either_copyin` fails
    if (← any) = 0 then pure ()
    else do
      -- `uartputc` if this is `cnum`
      let _ ← getConscur
      consolewriteLoop cnum n

def consolewrite (cnum n : Int) : Tab Unit := consolewriteLoop cnum n.toNat

/-- One round of the loop that waits for input: `r`, `w`, the channel and the lock. -/
def consolewait (cnum : Int) : Tab Unit := do
  use .cons cnum
  use .cons cnum
  use .cons cnum
  use .cons cnum

def consolereadLoop (cnum : Int) : Nat → Tab Unit
  | 0 => pure ()
  | n + 1 => do
    rounds (consolewait cnum) (← any).toNat
    use .cons cnum
    use .cons cnum
    -- `killed(myproc())`
    if (← any) = 0 then pure ()
    else do
      -- `cons[cnum].buf[cons[cnum].r++ % INPUT_BUF_SIZE]`
      use .cons cnum
      use .cons cnum
      -- the end of the file, a failed copy or a newline
      if (← any) = 0 then use .cons cnum
      else consolereadLoop cnum n

def consoleread (cnum n : Int) : Tab Unit := do
  Code.op (TabOp.enter cnum)
  use .cons cnum
  consolereadLoop cnum n.toNat
  use .cons cnum

def consolesw (consnum : Int) : Tab Unit := do
  setConscur consnum
  -- `printf`
  let _ ← getConscur
  pure ()

def consolenext : Tab Unit := do
  setConscur (((← getConscur) + 1).tmod NCONS)
  consolesw (← getConscur)

def consw (consnum : Int) : Tab Unit := consolesw consnum

/-- `wakeup`. -/
def wakeup : Tab Unit := procLoop

/-- One round of the loop that kills a line. -/
def consolekill : Tab Unit := do
  current
  current
  current
  current
  current

/-- The default case of the switch: `c` is stored. -/
def consolestore (c : Int) : Tab Unit := do
  current
  current
  -- there is room
  if (← any) = 0 then pure ()
  else do
    -- echo, store
    current
    current
    let c := if c = 13 then 10 else c
    let full ← consolefull c
    if full = 0 then pure ()
    else do
      current
      current
      current
      wakeup
where
  /-- The line ends or the buffer is full now. -/
  consolefull (c : Int) : Tab Int :=
    if c = 10 ∨ c = 4 then pure 1
    else do
      current
      current
      any

/-- One character is erased, if there is one. -/
def consoleerase : Tab Unit := do
  current
  current
  if (← any) = 0 then pure () else current

/-- The switch of `consoleintr`.  The character is given as its code; `C(x)` is `x - '@'`. -/
def consoleswitch (c : Int) : Tab Unit :=
  -- control-t
  if c = 20 then do
    current
    consolenext
    current
  -- control-p
  else if c = 16 then procLoop
  -- control-o
  else if c = 15 then pure ()
  -- control-u
  else if c = 21 then do
    rounds consolekill (← any).toNat
    consolestop
  -- control-h or delete
  else if c = 8 ∨ c = 127 then consoleerase
  else if c = 0 then pure ()
  else consolestore c
where
  /-- The test of the loop that kills a line fails. -/
  consolestop : Tab Unit := do
    current
    current
    -- the characters before are another line
    if (← any) = 0 then pure ()
    else do
      current
      current

def consoleintr (c : Int) : Tab Unit := do
  current
  consoleswitch c
  current

/-! ### `file.c` and `sysfile.c` -/

/-- The descriptor and its file. -/
def argfd (p : Slot) (fd : Int) : Tab (Option (Nat × Nat)) :=
  if fd < 0 ∨ fd ≥ NOFILE then pure none
  else do
    use .ofile fd
    return (← getOfile p fd.toNat).map (fd.toNat, ·)

def fdallocLoop (p : Slot) (f : Nat) : Nat → Nat → Tab (Option Nat)
  | 0, _ => pure none
  | k + 1, fd => do
    use .ofile fd
    match ← getOfile p fd with
    | none => do
      use .ofile fd
      setOfile p fd (some f)
      pure (some fd)
    | some _ => fdallocLoop p f k (fd + 1)

def fdalloc (p : Slot) (f : Nat) : Tab (Option Nat) := fdallocLoop p f NOFILE 0

/-- `f->major < 0 || f->major >= NDEV || !devsw[f->major].read`; only the console has functions in `devsw`. -/
def devOk (major : Int) : Tab Bool :=
  if major < 0 ∨ major ≥ NDEV then pure false
  else do
    use .devsw major
    return major = CONSOLE

def fileread (f : Nat) (n : Int) : Tab Unit := do
  match ← getFile f with
  | .none => Code.panic "fileread"
  | .pipe readable _ => if readable then wakeup else pure ()
  | .inode _ _ => pure ()
  | .device readable _ major minor =>
    if readable then do
      if ← devOk major then do
        use .devsw major
        consoleread minor n

def filewrite (f : Nat) (n : Int) : Tab Unit := do
  match ← getFile f with
  | .none => Code.panic "filewrite"
  | .pipe _ writable => if writable then wakeup else pure ()
  | .inode _ _ => pure ()
  | .device _ writable major minor =>
    if writable then do
      if ← devOk major then do
        use .devsw major
        consolewrite minor n

def sysRead (p : Slot) (fd n : Int) : Tab Unit := do
  match ← argfd p fd with
  | none => pure ()
  | some (_, f) => fileread f n

def sysWrite (p : Slot) (fd n : Int) : Tab Unit := do
  match ← argfd p fd with
  | none => pure ()
  | some (_, f) => filewrite f n

/-- `sys_fstat` and `sys_pipec`. -/
def sysFstat (p : Slot) (fd : Int) : Tab Unit := do
  let _ ← argfd p fd
  pure ()

def sysClose (p : Slot) (fd : Int) : Tab Unit := do
  match ← argfd p fd with
  | none => pure ()
  | some (fd, _) => do
    use .ofile fd
    setOfile p fd none

def sysDup (p : Slot) (fd : Int) : Tab Unit := do
  match ← argfd p fd with
  | none => pure ()
  | some (_, f) => do
    let _ ← fdalloc p f
    pure ()

/-- The rest of `sys_open`, for the `struct file` `f`. -/
def openFile (p : Slot) (readable writable : Bool) (node : Option (Int × Int)) (f : Nat) : Tab Unit := do
  match ← fdalloc p f with
  | none => pure ()
  | some _ =>
    match node with
    | some (major, minor) => setFile f (.device readable writable major minor)
    | none => setFile f (.inode readable writable)

/-- `created` says that `create` has made a new file.  The inode and the new `struct file` come from outside, negative if there is
none. -/
def sysOpen (p : Slot) (readable writable created : Bool) : Tab Unit := do
  let i ← any
  if i < 0 then pure ()
  else do
    let node ← openNode i.toNat
    if (node.map fun x => decide (x.1 < 0 ∨ x.1 ≥ NDEV)) = some true then pure ()
    else do
      let f ← any
      if f < 0 then pure () else openFile p readable writable node f.toNat
where
  openNode (i : Inum) : Tab (Option (Int × Int)) :=
    if created then do
      setNode i none
      pure none
    else getNode i

def sysMkdir : Tab Unit := do
  let i ← any
  if i < 0 then pure () else setNode i.toNat none

/-- `create` takes the numbers as `short`. -/
def sysMknod (major minor : Int) : Tab Unit := do
  let i ← any
  if i < 0 then pure () else setNode i.toNat (some (short major, short minor))

def sysPipe (p : Slot) : Tab Unit := do
  let rf ← any
  let wf ← any
  if rf < 0 ∨ wf < 0 then pure ()
  else do
    setFile rf.toNat (.pipe true false)
    setFile wf.toNat (.pipe false true)
    match ← fdalloc p rf.toNat with
    | none => pure ()
    | some fd0 =>
      match ← fdalloc p wf.toNat with
      | none => do
        use .ofile fd0
        setOfile p fd0 none
      | some fd1 =>
        -- `copyout` fails
        if (← any) ≠ 0 then pure ()
        else do
          use .ofile fd0
          setOfile p fd0 none
          use .ofile fd1
          setOfile p fd1 none

/-! ### `proc.c` -/

/-- The loop of `fork` that copies the descriptors to the child `np`. -/
def fork (p np : Slot) : Tab Unit :=
  eachFrom (fun i => do
    use .ofile i
    match ← getOfile p i with
    | none => pure ()
    | some f => do
      use .ofile i
      use .ofile i
      setOfile np i (some f)) NOFILE 0

/-- The loop of `exit` that closes them, then `reparent` and `wakeup`. -/
def exit (p : Slot) : Tab Unit := do
  eachFrom (fun i => do
    use .ofile i
    match ← getOfile p i with
    | none => pure ()
    | some _ => do
      use .ofile i
      setOfile p i none) NOFILE 0
  procLoop
  wakeup

def sproc (slot : Int) : Tab Unit := use .proc slot

end Tab

/-- System calls; the others use none of the arrays with an index that a user could choose. -/
inductive TabCall
  | read (fd n : Int)
  | write (fd n : Int)
  | close (fd : Int)
  | dup (fd : Int)
  | fstat (fd : Int)
  | open (readable writable created : Bool)
  | mkdir
  | mknod (major minor : Int)
  | pipe
  | fork (np : Slot)
  | exit
  | sproc (slot : Int)
  | consw (consnum : Int)
  -- `wait`, `kill`, `uproc`: a loop over the process table
  | procs

open Tab

def TabCall.code (p : Slot) : TabCall → Tab Unit
  | read fd n => sysRead p fd n
  | write fd n => sysWrite p fd n
  | close fd => sysClose p fd
  | dup fd => sysDup p fd
  | fstat fd => sysFstat p fd
  | .open readable writable created => sysOpen p readable writable created
  | mkdir => sysMkdir
  | mknod major minor => sysMknod major minor
  | pipe => sysPipe p
  | fork np => Tab.fork p np
  | exit => Tab.exit p
  | sproc slot => Tab.sproc slot
  | consw consnum => Tab.consw consnum
  | procs => procLoop

/-- The shared state that the indices come from. -/
structure Tables where
  conscur : Int
  ofile : Slot → Nat → Option Nat
  file : Nat → TabFile
  node : Inum → Option (Int × Int)

/-- One operation; `x` is what comes from outside. -/
def Tables.exec (s : Tables) (x : Int) : (o : TabOp) → o.Ans × Tables
  | .use _ _ => ((), s)
  | .getConscur => (s.conscur, s)
  | .setConscur n => ((), { s with conscur := n })
  | .getOfile p fd => (s.ofile p fd, s)
  | .setOfile p fd f => ((), { s with ofile := update s.ofile p (update (s.ofile p) fd f) })
  | .getFile f => (s.file f, s)
  | .setFile f y => ((), { s with file := update s.file f y })
  | .getNode i => (s.node i, s)
  | .setNode i y => ((), { s with node := update s.node i y })
  | .enter _ => ((), s)
  | .any => (x, s)

/-- The processes and, on each CPU, the interrupt handler. -/
abbrev TabThread := Slot ⊕ Fin NCPU

structure TabSys where
  tab : Tables
  -- what each thread has left to do
  code : TabThread → Tab Unit

inductive TabEv
  | call (p : Slot) (c : TabCall)
  -- a character comes from the console
  | intr (cpu : Fin NCPU) (c : Int)
  | next (a : TabThread) (x : Int)

namespace TabSys

def step (s : TabSys) : TabEv → Option (Except String TabSys)
  | .call p c =>
    match s.code (.inl p) with
    | .ret _ => some (.ok { s with code := update s.code (.inl p) (c.code p) })
    | _ => none
  | .intr cpu c =>
    match s.code (.inr cpu) with
    | .ret _ => some (.ok { s with code := update s.code (.inr cpu) (consoleintr c) })
    | _ => none
  | .next a x =>
    match s.code a with
    | .ret _ => none
    | .panic msg => some (.error msg)
    | .call o k => some (.ok ⟨(s.tab.exec x o).2, update s.code a (k (s.tab.exec x o).1)⟩)

/-- After booting, whatever the disk holds. -/
structure Init (s : TabSys) : Prop where
  conscur : s.tab.conscur = 0
  ofile : s.tab.ofile = fun _ _ => none
  file : s.tab.file = fun _ => .none
  code : s.code = fun _ => .ret ()

/-- The users' numbers that are used as indices are in range: those given to `sproc` and `consw`, and the minor number of a console
that is read. -/
def InRange (s : TabSys) : TabEv → Prop
  | .call _ (.sproc slot) => 0 ≤ slot ∧ slot < NPROC
  | .call _ (.consw n) => 0 ≤ n ∧ n < NCONS
  | .next a _ => ∀ cnum k, s.code a = .call (.enter cnum) k → 0 ≤ cnum ∧ cnum < NCONS
  | _ => True

/-- The index of each use of an array that is to come next is in range, and so is the number of the current console. -/
structure InBounds (s : TabSys) : Prop where
  conscur : 0 ≤ s.tab.conscur ∧ s.tab.conscur < NCONS
  use : ∀ a t i k, s.code a = .call (.use t i) k → 0 ≤ i ∧ i < t.size

end TabSys

end Xv6
