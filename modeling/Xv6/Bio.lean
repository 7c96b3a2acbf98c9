import Xv6.Lib.Wp
import Xv6.Lib.Writes
import Xv6.LogOps

/-!
# The buffer cache and the disk

The functions of `bio.c` for one process, over a cache of `NBUF` buffers and a disk that performs block writes one
after the other, each as a whole.  `Store.writes` is the history of these writes.  The list through `prev` and `next`
is `Store.lru`, read from `bcache.head.next`.  The sleep lock of a buffer is left out: the process that calls these
functions is the only one to use the buffers.
-/

namespace Xv6

/-- The contents of a disk block. -/
abbrev Block := Fin BSIZE → UInt8

abbrev Disk := UInt32 → Block

structure Buf where
  valid : Bool
  dev : UInt32
  blockno : UInt32
  refcnt : Nat
  data : Block

/-- The buffer cache, the log, the disk and the writes it has performed, oldest first. -/
structure Store where
  buf : Fin NBUF → Buf
  lru : List (Fin NBUF)
  log : Log
  disk : Disk
  writes : List (UInt32 × Block)

/-- Kernel code that runs on a `Store`; an error is a panic. -/
abbrev Io := EStateM String Store

namespace Store

def setBuf (s : Store) (i : Fin NBUF) (b : Buf) : Store := { s with buf := Function.update s.buf i b }

@[simp] theorem setBuf_buf_self (s : Store) (i : Fin NBUF) (b : Buf) : (s.setBuf i b).buf i = b :=
  Function.update_self ..

@[simp] theorem setBuf_buf_ne (s : Store) {i j : Fin NBUF} (h : j ≠ i) (b : Buf) : (s.setBuf i b).buf j = s.buf j :=
  Function.update_of_ne h ..

@[simp] theorem setBuf_setBuf (s : Store) (i : Fin NBUF) (b c : Buf) : (s.setBuf i b).setBuf i c = s.setBuf i c := by
  simp [setBuf]

@[simp] theorem setBuf_lru (s : Store) (i : Fin NBUF) (b : Buf) : (s.setBuf i b).lru = s.lru := rfl

@[simp] theorem setBuf_log (s : Store) (i : Fin NBUF) (b : Buf) : (s.setBuf i b).log = s.log := rfl

@[simp] theorem setBuf_disk (s : Store) (i : Fin NBUF) (b : Buf) : (s.setBuf i b).disk = s.disk := rfl

@[simp] theorem setBuf_writes (s : Store) (i : Fin NBUF) (b : Buf) : (s.setBuf i b).writes = s.writes := rfl

/-- Buffer `i` is assigned to block `b` of `dev`. -/
def Caches (s : Store) (dev b : UInt32) (i : Fin NBUF) : Prop := (s.buf i).dev = dev ∧ (s.buf i).blockno = b

instance (s : Store) (dev b : UInt32) (i : Fin NBUF) : Decidable (s.Caches dev b i) := inferInstanceAs (Decidable (_ ∧ _))

end Store

/-- Find the block in the cache, or take the least recently used buffer that nobody refers to. -/
def bget (dev blockno : UInt32) : Io (Fin NBUF) := fun s =>
  match s.lru.find? fun i => s.Caches dev blockno i with
  | some i => .ok i (s.setBuf i { s.buf i with refcnt := (s.buf i).refcnt + 1 })
  | none =>
    match s.lru.reverse.find? fun i => (s.buf i).refcnt = 0 with
    | some i => .ok i (s.setBuf i { s.buf i with dev := dev, blockno := blockno, valid := false, refcnt := 1 })
    | none => .error "bget: no buffers" s

/-- The transfer between a buffer and the disk. -/
def virtioDiskRw (i : Fin NBUF) (write : Bool) : Io Unit := modify fun s =>
  let b := s.buf i
  if write then
    { s with disk := Function.update s.disk b.blockno b.data, writes := s.writes ++ [(b.blockno, b.data)] }
  else s.setBuf i { b with data := s.disk b.blockno }

def bread (dev blockno : UInt32) : Io (Fin NBUF) := do
  let i ← bget dev blockno
  let s ← get
  if !(s.buf i).valid then
    virtioDiskRw i false
    modify fun s => s.setBuf i { s.buf i with valid := true }
  return i

def bwrite (i : Fin NBUF) : Io Unit := virtioDiskRw i true

/-- Drop a reference; a buffer nobody refers to goes to the front of the list. -/
def Store.release (s : Store) (i : Fin NBUF) : Store :=
  let t := s.setBuf i { s.buf i with refcnt := (s.buf i).refcnt - 1 }
  if (t.buf i).refcnt = 0 then { t with lru := i :: t.lru.erase i } else t

def brelse (i : Fin NBUF) : Io Unit := modify (·.release i)

def bpin (i : Fin NBUF) : Io Unit := modify fun s => s.setBuf i { s.buf i with refcnt := (s.buf i).refcnt + 1 }

def bunpin (i : Fin NBUF) : Io Unit := modify fun s => s.setBuf i { s.buf i with refcnt := (s.buf i).refcnt - 1 }

/-- `memmove(b->data, data, BSIZE)`. -/
def setData (i : Fin NBUF) (data : Block) : Io Unit := modify fun s => s.setBuf i { s.buf i with data := data }

/-- The cache that `binit` leaves: no buffer is valid, each was put in front of the one before. -/
def binit (log : Log) (disk : Disk) : Store where
  buf _ := { valid := false, dev := 0, blockno := 0, refcnt := 0, data := fun _ => 0 }
  lru := (List.finRange NBUF).reverse
  log := log
  disk := disk
  writes := []

end Xv6
