import Mathlib.Data.Finset.Card
import Mathlib.Data.Fintype.Basic
import Xv6.Lib.Lts
import Xv6.Param

/-!
# Log operations of concurrent processes

`begin_op`, `log_write`, `end_op` and the steps of `commit` (`log.c`), taken by any number of processes in any
order.  One step of `LogSys` is one section that holds `log.lock`, or one step of `commit`, which runs without the
lock.  A process asleep in `begin_op` may test again at any moment, woken or not.
-/

namespace Xv6

/-- `struct log`; the header `lh` is the list of its first `n` block numbers. -/
structure Log where
  start : UInt32
  size : Int
  outstanding : Int
  committing : Bool
  dev : UInt32
  lh : List UInt32

/-- The loop of `log_write`: overwrite the entry that already holds `b`, or add one at the end. -/
def absorb : List UInt32 → UInt32 → List UInt32
  | [], b => [b]
  | x :: xs, b => if x = b then b :: xs else x :: absorb xs b

namespace Log

/-- One round of the loop of `begin_op`; `none` is the call of `sleep`. -/
def beginOp (lg : Log) : Option Log :=
  if lg.committing then none
  else if (lg.lh.length : Int) + (lg.outstanding + 1) * MAXOPBLOCKS > LOGSIZE then none
  else some { lg with outstanding := lg.outstanding + 1 }

/-- The section of `log_write` for block `b`. -/
def logWrite (lg : Log) (b : UInt32) : Except String Log :=
  if (lg.lh.length : Int) ≥ LOGSIZE ∨ (lg.lh.length : Int) ≥ lg.size - 1 then .error "too big a transaction"
  else if lg.outstanding < 1 then .error "log_write outside of trans"
  else .ok { lg with lh := absorb lg.lh b }

/-- The first section of `end_op`; the flag is `do_commit`. -/
def endOp (lg : Log) : Except String (Log × Bool) :=
  if lg.committing then .error "log.committing"
  else if lg.outstanding - 1 = 0 then .ok ({ lg with outstanding := lg.outstanding - 1, committing := true }, true)
  else .ok ({ lg with outstanding := lg.outstanding - 1 }, false)

end Log

/-- Where a process stands inside `commit`. -/
inductive CommitPc
  | test
  | writeLog (tail : Nat)
  | writeHead
  | installTrans (tail : Nat)
  | clear
  | eraseHead
  | finish

/-- Where a process stands with respect to the log. -/
inductive OpPc
  | out
  | beginOp
  /-- Between `begin_op` and `end_op`, with the blocks the operation has logged so far. -/
  | inOp (wrote : List UInt32)
  | inCommit (c : CommitPc)

/-- The log in memory, the block numbers in the header block on disk, and the processes. -/
structure LogSys (P : Type) where
  log : Log
  head : List UInt32
  pc : P → OpPc

inductive LogEv (P : Type)
  | beginOp (p : P)
  | logWrite (p : P) (b : UInt32)
  | endOp (p : P)
  | commit (p : P)
  | finish (p : P)

section

variable {P : Type} [DecidableEq P]

namespace LogSys

def setPc (s : LogSys P) (p : P) (c : OpPc) : LogSys P := { s with pc := Function.update s.pc p c }

/-- One step of `commit` by `p`. -/
def commitStep (s : LogSys P) (p : P) : CommitPc → Option (LogSys P)
  | .test => some (s.setPc p (.inCommit (if s.log.lh.length > 0 then .writeLog 0 else .finish)))
  | .writeLog tail =>
    some (s.setPc p (.inCommit (if tail < s.log.lh.length then .writeLog (tail + 1) else .writeHead)))
  | .writeHead => some ({ s with head := s.log.lh }.setPc p (.inCommit (.installTrans 0)))
  | .installTrans tail =>
    some (s.setPc p (.inCommit (if tail < s.log.lh.length then .installTrans (tail + 1) else .clear)))
  | .clear => some ({ s with log := { s.log with lh := [] } }.setPc p (.inCommit .eraseHead))
  | .eraseHead => some ({ s with head := s.log.lh }.setPc p (.inCommit .finish))
  | .finish => none

/-- The steps of the system; a process calls `log_write` and `end_op` only inside an operation of its own. -/
def step (s : LogSys P) : LogEv P → Option (Except String (LogSys P))
  | .beginOp p =>
    match s.pc p with
    | .out | .beginOp =>
      match s.log.beginOp with
      | none => some (.ok (s.setPc p .beginOp))
      | some lg => some (.ok ({ s with log := lg }.setPc p (.inOp [])))
    | _ => none
  | .logWrite p b =>
    match s.pc p with
    | .inOp wrote => some ((s.log.logWrite b).map fun lg => { s with log := lg }.setPc p (.inOp (b :: wrote)))
    | _ => none
  | .endOp p =>
    match s.pc p with
    | .inOp _ =>
      some (s.log.endOp.map fun (lg, doCommit) =>
        { s with log := lg }.setPc p (if doCommit then .inCommit .test else .out))
    | _ => none
  | .commit p =>
    match s.pc p with
    | .inCommit c => (s.commitStep p c).map .ok
    | _ => none
  | .finish p =>
    match s.pc p with
    | .inCommit .finish => some (.ok ({ s with log := { s.log with committing := false } }.setPc p .out))
    | _ => none

end LogSys

/-- The state `initlog` leaves behind: an empty log of `nlog` blocks, and no process in an operation. -/
def LogSys.Init (nlog : Int) (s : LogSys P) : Prop :=
  s.log.size = nlog ∧ s.log.outstanding = 0 ∧ s.log.committing = false ∧ s.log.lh = [] ∧ s.head = [] ∧
    ∀ p, s.pc p = .out

/-- All runs of the processes `P` on a log of `nlog` blocks. -/
def logLts (P : Type) [DecidableEq P] (nlog : Int) : Lts (LogSys P) (LogEv P) := .ofFun (LogSys.Init nlog) LogSys.step

end

end Xv6
