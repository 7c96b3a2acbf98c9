import Mathlib.Algebra.Order.Group.Nat
import Xv6.Bio

/-!
# The log on disk

The functions of `log.c` that move blocks: `write_log`, `write_head`, `install_trans`, `read_head`,
`recover_from_log`, `initlog`, `commit` and `log_write`.  The header block is the byte image of `struct logheader`:
the count and then the block numbers, as little-endian words.
-/

namespace Xv6

/-! ### The header block -/

/-- The number of words in a block. -/
def NWORD : Nat := BSIZE / 4

def getWord (b : Block) (i : Nat) : UInt32 :=
  if h : 4 * i + 3 < BSIZE then
    .ofNat ((b ⟨4 * i, by omega⟩).toNat + 256 * (b ⟨4 * i + 1, by omega⟩).toNat +
      256 ^ 2 * (b ⟨4 * i + 2, by omega⟩).toNat + 256 ^ 3 * (b ⟨4 * i + 3, h⟩).toNat)
  else 0

def setWord (b : Block) (i : Nat) (w : UInt32) : Block := fun k =>
  if k.val / 4 = i then .ofNat (w.toNat / 256 ^ (k.val % 4)) else b k

/-- Store a list of words from word `i` on. -/
def setWords (b : Block) : Nat → List UInt32 → Block
  | _, [] => b
  | i, w :: ws => setWords (setWord b i w) (i + 1) ws

/-- `hb->n`, as the bound of a loop over an `int` counter. -/
def headerCount (b : Block) : Nat := if (getWord b 0).toNat < 2 ^ 31 then (getWord b 0).toNat else 0

/-- The block numbers `hb->block[0 .. n)`. -/
def header (b : Block) : List UInt32 := (List.range (headerCount b)).map fun i => getWord b (i + 1)

/-- The header block after its count and its first entries have been overwritten with `lh`. -/
def putHeader (b : Block) (lh : List UInt32) : Block := setWords (setWord b 0 (.ofNat lh.length)) 1 lh

/-- `log.start + tail + 1`. -/
def Log.slot (lg : Log) (tail : Nat) : UInt32 := lg.start + .ofNat tail + 1

/-! ### Moving blocks -/

/-- One round of the loop of `install_trans`, for the home block `b`. -/
def installEntry (lg : Log) (recovering : Bool) (tail : Nat) (b : UInt32) : Io Unit := do
  let lbuf ← bread lg.dev (lg.slot tail)
  let dbuf ← bread lg.dev b
  setData dbuf ((← get).buf lbuf).data
  bwrite dbuf
  if !recovering then bunpin dbuf
  brelse lbuf
  brelse dbuf

/-- The loop of `install_trans` from entry `tail` on. -/
def installFrom (lg : Log) (recovering : Bool) : Nat → List UInt32 → Io Unit
  | _, [] => pure ()
  | tail, b :: bs => do
    installEntry lg recovering tail b
    installFrom lg recovering (tail + 1) bs

/-- Copy committed blocks from the log to their home location. -/
def installTrans (recovering : Bool) : Io Unit := do
  let lg := (← get).log
  installFrom lg recovering 0 lg.lh

/-- Read the log header from disk into the in-memory log header. -/
def readHead : Io Unit := do
  let lg := (← get).log
  let buf ← bread lg.dev lg.start
  modify fun s => { s with log := { s.log with lh := header (s.buf buf).data } }
  brelse buf

/-- Write the in-memory log header to disk. -/
def writeHead : Io Unit := do
  let lg := (← get).log
  let buf ← bread lg.dev lg.start
  setData buf (putHeader ((← get).buf buf).data lg.lh)
  bwrite buf
  brelse buf

/-- `log.lh.n = 0`. -/
def clearHeader : Io Unit := modify fun s => { s with log := { s.log with lh := [] } }

def recoverFromLog : Io Unit := do
  readHead
  installTrans true
  clearHeader
  writeHead

def initlog (dev start : UInt32) (nlog : Int) : Io Unit := do
  if 4 * (1 + LOGSIZE) ≥ BSIZE then throw "initlog: too big logheader"
  modify fun s => { s with log := { s.log with start := start, size := nlog, dev := dev } }
  recoverFromLog

/-- One round of the loop of `write_log`, for the home block `b`. -/
def writeLogEntry (lg : Log) (tail : Nat) (b : UInt32) : Io Unit := do
  let toBuf ← bread lg.dev (lg.slot tail)
  let fromBuf ← bread lg.dev b
  setData toBuf ((← get).buf fromBuf).data
  bwrite toBuf
  brelse fromBuf
  brelse toBuf

/-- The loop of `write_log` from entry `tail` on. -/
def writeLogFrom (lg : Log) : Nat → List UInt32 → Io Unit
  | _, [] => pure ()
  | tail, b :: bs => do
    writeLogEntry lg tail b
    writeLogFrom lg (tail + 1) bs

/-- Copy modified blocks from the cache to the log. -/
def writeLog : Io Unit := do
  let lg := (← get).log
  writeLogFrom lg 0 lg.lh

def commit : Io Unit := do
  if (← get).log.lh.length > 0 then
    writeLog
    writeHead
    installTrans false
    clearHeader
    writeHead

/-- `log_write`: record the block of buffer `i`, and pin it if it is new. -/
def logWrite (i : Fin NBUF) : Io Unit := do
  let s ← get
  match s.log.logWrite (s.buf i).blockno with
  | .error msg => throw msg
  | .ok lg =>
    if (s.buf i).blockno ∉ s.log.lh then bpin i
    modify fun s => { s with log := lg }

end Xv6
