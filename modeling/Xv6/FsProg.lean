import Xv6.LogDisk

/-!
# Code that uses the buffer cache

A `Prog` is kernel code of one process, cut at the calls of `bio.c` and `log.c` and at the accesses to the data of a buffer.
Other processes may run between any two of these.  The outcome of a copy from or to user memory is chosen from outside.
-/

namespace Xv6

inductive Prog (α : Type) : Type
  | pure (a : α)
  | panic (msg : String)
  | bread (b : UInt32) (k : Fin NBUF → Prog α)
  -- the bytes of the buffer, and a new value for them
  | data (i : Fin NBUF) (k : Block → Prog α)
  | store (i : Fin NBUF) (d : Block) (k : Prog α)
  -- `either_copyin` of `m` bytes to offset `off` of the buffer; the answer says that it did not return -1
  | copyin (i : Fin NBUF) (off m : Nat) (k : Bool → Prog α)
  -- `either_copyout` of the `m` bytes at offset `off` of the buffer
  | copyout (i : Fin NBUF) (off m : Nat) (k : Bool → Prog α)
  | logWrite (i : Fin NBUF) (k : Prog α)
  | bwrite (i : Fin NBUF) (k : Prog α)
  | brelse (i : Fin NBUF) (k : Prog α)
  | bunpin (i : Fin NBUF) (k : Prog α)
  -- the log in memory, and `log.lh.n = 0`
  | readLog (k : Log → Prog α)
  | clearHead (k : Prog α)

namespace Prog

variable {α β γ : Type}

def bind : Prog α → (α → Prog β) → Prog β
  | .pure a, f => f a
  | .panic msg, _ => .panic msg
  | .bread b k, f => .bread b fun i => (k i).bind f
  | .data i k, f => .data i fun d => (k d).bind f
  | .store i d k, f => .store i d (k.bind f)
  | .copyin i off m k, f => .copyin i off m fun ok => (k ok).bind f
  | .copyout i off m k, f => .copyout i off m fun ok => (k ok).bind f
  | .logWrite i k, f => .logWrite i (k.bind f)
  | .bwrite i k, f => .bwrite i (k.bind f)
  | .brelse i k, f => .brelse i (k.bind f)
  | .bunpin i k, f => .bunpin i (k.bind f)
  | .readLog k, f => .readLog fun lg => (k lg).bind f
  | .clearHead k, f => .clearHead (k.bind f)

instance : Monad Prog where
  pure := .pure
  bind := .bind

end Prog

namespace Fs

def panic {α : Type} (msg : String) : Prog α := .panic msg

def bread (b : UInt32) : Prog (Fin NBUF) := .bread b .pure

def data (i : Fin NBUF) : Prog Block := .data i .pure

def store (i : Fin NBUF) (d : Block) : Prog Unit := .store i d (.pure ())

def copyin (i : Fin NBUF) (off m : Nat) : Prog Bool := .copyin i off m .pure

def copyout (i : Fin NBUF) (off m : Nat) : Prog Bool := .copyout i off m .pure

def logWrite (i : Fin NBUF) : Prog Unit := .logWrite i (.pure ())

def bwrite (i : Fin NBUF) : Prog Unit := .bwrite i (.pure ())

def brelse (i : Fin NBUF) : Prog Unit := .brelse i (.pure ())

def bunpin (i : Fin NBUF) : Prog Unit := .bunpin i (.pure ())

def readLog : Prog Log := .readLog .pure

def clearHead : Prog Unit := .clearHead (.pure ())

/-! ### `log.c` -/

/-- The loop of `write_log` from entry `tail` on. -/
def writeLogFrom (lg : Log) : Nat → List UInt32 → Prog Unit
  | _, [] => pure ()
  | tail, b :: bs => do
    let toBuf ← bread (lg.slot tail)
    let fromBuf ← bread b
    store toBuf (← data fromBuf)
    bwrite toBuf
    brelse fromBuf
    brelse toBuf
    writeLogFrom lg (tail + 1) bs

def writeLog : Prog Unit := do
  let lg ← readLog
  writeLogFrom lg 0 lg.lh

def writeHead : Prog Unit := do
  let lg ← readLog
  let buf ← bread lg.start
  store buf (putHeader (← data buf) lg.lh)
  bwrite buf
  brelse buf

/-- The loop of `install_trans(0)` from entry `tail` on. -/
def installFrom (lg : Log) : Nat → List UInt32 → Prog Unit
  | _, [] => pure ()
  | tail, b :: bs => do
    let lbuf ← bread (lg.slot tail)
    let dbuf ← bread b
    store dbuf (← data lbuf)
    bwrite dbuf
    bunpin dbuf
    brelse lbuf
    brelse dbuf
    installFrom lg (tail + 1) bs

def installTrans : Prog Unit := do
  let lg ← readLog
  installFrom lg 0 lg.lh

def commit : Prog Unit := do
  let lg ← readLog
  if lg.lh.length > 0 then
    writeLog
    writeHead
    installTrans
    clearHead
    writeHead

end Fs

end Xv6
