import Mathlib.Data.Multiset.AddSub
import Mathlib.Logic.Function.Basic
import Xv6.Lib.Lts
import Xv6.Lib.Ring
import Xv6.Param

/-!
# The driver of the virtio disk

`virtio_disk.c` with processes in `virtio_disk_rw`, an interrupt handler on each CPU, and a device that takes the heads of chains from
the available ring and, in any order, writes the status 0 where the chain says, adds the head to the used ring and counts it.  A step
of the code is one access to what the device shares, or one call of `alloc_desc` or `free_desc`; the rest of the code between two of
them runs under `vdisk_lock` and no one else looks at it.  A process that sleeps may be woken at any time, so `wakeup` does nothing
here.

A chain is held by a process from the first descriptor that it allocates to the last that it frees (`RwPc.chain`).
-/

namespace Xv6

namespace Virtio

open Function (update)

/-- Number of descriptors. -/
def NUM : Nat := 8

def VRING_DESC_F_NEXT : Nat := 1

def VRING_DESC_F_WRITE : Nat := 2

def VIRTIO_BLK_T_IN : Nat := 0

def VIRTIO_BLK_T_OUT : Nat := 1

/-- The ring indices are `uint16`. -/
def W : Nat := 2 ^ 16

/-- The memory that the address in a descriptor may be of: `ops[i]`, the data of a buffer or `info[i].status`. -/
inductive Addr (B : Type)
  | null
  | op (i : Nat)
  | data (b : B)
  | status (i : Nat)

structure Desc (B : Type) where
  addr : Addr B
  len : Nat
  flags : Nat
  next : Nat

/-- `flags & VRING_DESC_F_NEXT`. -/
def Desc.hasNext {B : Type} (x : Desc B) : Bool := x.flags &&& VRING_DESC_F_NEXT != 0

structure BlkReq where
  type : Nat
  sector : Nat

structure Info (B : Type) where
  b : Option B
  status : Nat

/-- A ring and its index. -/
structure Queue where
  idx : Nat
  ring : Nat → Nat

/-- `struct disk`. -/
structure Disk (B : Type) where
  desc : Nat → Desc B
  avail : Queue
  used : Queue
  free : Nat → Bool
  usedIdx : Nat
  info : Nat → Info B
  ops : Nat → BlkReq

variable {T B : Type}

namespace Disk

variable (d : Disk B)

def allocDesc : Option (Nat × Disk B) :=
  ((List.range NUM).find? d.free).map fun i => (i, { d with free := update d.free i false })

def freeDesc (i : Nat) : Except String (Disk B) :=
  if i ≥ NUM then .error "free_desc 1"
  else if d.free i then .error "free_desc 2"
  else .ok { d with desc := update d.desc i ⟨.null, 0, 0, 0⟩, free := update d.free i true }

/-- The three descriptors of a request, and `info`. -/
def format (b : B) (sector : Nat) (write : Bool) (i j k : Nat) : Disk B :=
  { d with
    ops := update d.ops i ⟨if write then VIRTIO_BLK_T_OUT else VIRTIO_BLK_T_IN, sector⟩
    desc := update (update (update d.desc i ⟨.op i, 16, VRING_DESC_F_NEXT, j⟩)
      j ⟨.data b, 1024, (if write then 0 else VRING_DESC_F_WRITE) ||| VRING_DESC_F_NEXT, k⟩)
      k ⟨.status i, 1, VRING_DESC_F_WRITE, 0⟩
    info := update d.info i ⟨some b, 0xff⟩ }

/-- `avail->ring[avail->idx % NUM] = i`. -/
def putAvail (i : Nat) : Disk B := { d with avail := { d.avail with ring := update d.avail.ring (d.avail.idx % NUM) i } }

/-- `avail->idx += 1`. -/
def bumpAvail : Disk B := { d with avail := { d.avail with idx := (d.avail.idx + 1) % W } }

/-- `info[i].b = 0`. -/
def dropInfo (i : Nat) : Disk B := { d with info := update d.info i { d.info i with b := none } }

/-- `used_idx += 1`. -/
def bumpSeen : Disk B := { d with usedIdx := (d.usedIdx + 1) % W }

/-! What the device does. -/

def setStatus (i : Nat) : Disk B := { d with info := update d.info i { d.info i with status := 0 } }

def putUsed (i : Nat) : Disk B := { d with used := { d.used with ring := update d.used.ring (d.used.idx % NUM) i } }

def bumpUsed : Disk B := { d with used := { d.used with idx := (d.used.idx + 1) % W } }

/-- The descriptors are linked in this order, and the last is the end. -/
def Links : List Nat → Prop
  | [] => False
  | [i] => (d.desc i).hasNext = false
  | i :: j :: l => (d.desc i).hasNext = true ∧ (d.desc i).next = j ∧ Links (j :: l)

/-- The data descriptor and the status descriptor of a chain, if it has three. -/
def parts (i : Nat) : Option (Desc B × Desc B) :=
  let x := d.desc i
  let y := d.desc x.next
  let z := d.desc y.next
  if x.hasNext && y.hasNext && !z.hasNext then some (y, z) else none

/-- Where the device is to write the status. -/
def statusOf (i : Nat) : Option Nat :=
  match d.parts i with
  | some (_, ⟨.status k, _, _, _⟩) => some k
  | _ => none

/-- The buffer whose data the chain transfers. -/
def dataOf (i : Nat) : Option B :=
  match d.parts i with
  | some (⟨.data b, _, _, _⟩, _) => some b
  | _ => none

end Disk

/-- The buffer and its sector. -/
structure Req (B : Type) where
  b : B
  sector : Nat
  write : Bool

/-- The points of `virtio_disk_rw`. -/
inductive RwPc (B : Type)
  | idle
  -- wants the lock, at first or after a sleep on `&disk.free[0]`
  | acquire (r : Req B)
  -- in `alloc3_desc`, with these allocated
  | alloc (r : Req B) (idx : List Nat)
  -- these are freed as there is no third
  | undo (r : Req B) (idx : List Nat)
  | format (r : Req B) (i j k : Nat)
  | ring (b : B) (i j k : Nat)
  | publish (b : B) (i j k : Nat)
  -- tests `b->disk`
  | wait (b : B) (i j k : Nat)
  -- sleeps on `b`
  | asleep (b : B) (i j k : Nat)
  -- in `free_chain`, at `i`; `rest` are the descriptors of `idx` after it
  | free (b : B) (i : Nat) (rest : List Nat)
  | release (b : B)

/-- The points of `virtio_disk_intr`. -/
inductive IntrPc
  | idle
  | acquire
  -- tests whether `used_idx` differs from `used->idx`
  | loop
  | fetch
  | entry (id : Nat)

/-- What the device has taken: not done, with its status written, or being added to the used ring. -/
structure Dev where
  lastAvail : Nat
  started : List Nat
  finished : List Nat
  adding : Option Nat

structure Sys (T B : Type) where
  disk : Disk B
  -- `b->disk`
  b : B → Bool
  lock : Option (T ⊕ Fin NCPU)
  rw : T → RwPc B
  intr : Fin NCPU → IntrPc
  dev : Dev

namespace RwPc

/-- The buffer of the call. -/
def buf : RwPc B → Option B
  | idle => none
  | acquire r | alloc r _ | undo r _ | format r _ _ _ => some r.b
  | ring b .. | publish b .. | wait b .. | asleep b .. | free b .. | release b => some b

/-- The descriptors that the process holds. -/
def chain : RwPc B → List Nat
  | idle | acquire _ | release _ => []
  | alloc _ idx | undo _ idx => idx
  | format _ i j k | ring _ i j k | publish _ i j k | wait _ i j k | asleep _ i j k => [i, j, k]
  | free _ i rest => i :: rest

/-- The process waits for the device: the buffer and the head of the chain. -/
def waiting : RwPc B → Option (B × Nat)
  | wait b i _ _ | asleep b i _ _ => some (b, i)
  | _ => none

def locked : RwPc B → Bool
  | idle | acquire _ | asleep .. => false
  | _ => true

end RwPc

def IntrPc.locked : IntrPc → Bool
  | idle | acquire => false
  | _ => true

inductive Ev (T B : Type)
  | call (t : T) (b : B) (blockno : Nat) (write : Bool)
  | run (t : T)
  | intr (c : Fin NCPU)
  | irun (c : Fin NCPU)
  -- the device
  | consume
  | finish (i : Nat)
  | add (i : Nat)
  | count

namespace Sys

variable [DecidableEq T] (s : Sys T B)

def setRw (t : T) (x : RwPc B) : Sys T B := { s with rw := update s.rw t x }

def setIntr (c : Fin NCPU) (x : IntrPc) : Sys T B := { s with intr := update s.intr c x }

@[simp] theorem setRw_disk (t : T) (x : RwPc B) : (s.setRw t x).disk = s.disk := rfl

@[simp] theorem setRw_b (t : T) (x : RwPc B) : (s.setRw t x).b = s.b := rfl

@[simp] theorem setRw_lock (t : T) (x : RwPc B) : (s.setRw t x).lock = s.lock := rfl

@[simp] theorem setRw_rw (t : T) (x : RwPc B) : (s.setRw t x).rw = update s.rw t x := rfl

@[simp] theorem setRw_intr (t : T) (x : RwPc B) : (s.setRw t x).intr = s.intr := rfl

@[simp] theorem setRw_dev (t : T) (x : RwPc B) : (s.setRw t x).dev = s.dev := rfl

/-- `idx` is full, or one more is allocated. -/
def allocStep (t : T) (r : Req B) (idx : List Nat) : Sys T B :=
  match idx with
  | [i, j, k] => s.setRw t (.format r i j k)
  | _ =>
    match s.disk.allocDesc with
    | some (i, d) => { s with disk := d }.setRw t (.alloc r (idx ++ [i]))
    | none => s.setRw t (.undo r idx)

/-- One round of `free_chain`. -/
def freeStep (t : T) (b : B) (i : Nat) (rest : List Nat) : Except String (Sys T B) := do
  let x := s.disk.desc i
  let d ← s.disk.freeDesc i
  return { s with disk := d }.setRw t (if x.hasNext then .free b x.next rest.tail else .release b)

variable [DecidableEq B]

def run (t : T) : Option (Except String (Sys T B)) :=
  match s.rw t with
  | .idle => none
  | .acquire r => if s.lock.isNone then some (.ok ({ s with lock := some (.inl t) }.setRw t (.alloc r []))) else none
  | .alloc r idx => some (.ok (s.allocStep t r idx))
  | .undo r (i :: idx) => some do return { s with disk := ← s.disk.freeDesc i }.setRw t (.undo r idx)
  | .undo r [] => some (.ok ({ s with lock := none }.setRw t (.acquire r)))
  | .format r i j k =>
    some (.ok ({ s with disk := s.disk.format r.b r.sector r.write i j k, b := update s.b r.b true }.setRw t (.ring r.b i j k)))
  | .ring b i j k => some (.ok ({ s with disk := s.disk.putAvail i }.setRw t (.publish b i j k)))
  | .publish b i j k => some (.ok ({ s with disk := s.disk.bumpAvail }.setRw t (.wait b i j k)))
  | .wait b i j k =>
    if s.b b then some (.ok ({ s with lock := none }.setRw t (.asleep b i j k)))
    else some (.ok ({ s with disk := s.disk.dropInfo i }.setRw t (.free b i [j, k])))
  | .asleep b i j k => if s.lock.isNone then some (.ok ({ s with lock := some (.inl t) }.setRw t (.wait b i j k))) else none
  | .free b i rest => some (s.freeStep t b i rest)
  | .release _ => some (.ok ({ s with lock := none }.setRw t .idle))

def irun (c : Fin NCPU) : Option (Except String (Sys T B)) :=
  match s.intr c with
  | .idle => none
  | .acquire => if s.lock.isNone then some (.ok ({ s with lock := some (.inr c) }.setIntr c .loop)) else none
  | .loop =>
    if s.disk.usedIdx = s.disk.used.idx then some (.ok ({ s with lock := none }.setIntr c .idle))
    else some (.ok (s.setIntr c .fetch))
  | .fetch => some (.ok (s.setIntr c (.entry (s.disk.used.ring (s.disk.usedIdx % NUM)))))
  | .entry id =>
    if (s.disk.info id).status ≠ 0 then some (.error "virtio_disk_intr status")
    else
      match (s.disk.info id).b with
      -- a null pointer
      | none => some (.error "kerneltrap")
      | some b => some (.ok ({ s with disk := s.disk.bumpSeen, b := update s.b b false }.setIntr c .loop))

def step : Ev T B → Option (Except String (Sys T B))
  | .call t b blockno write =>
    match s.rw t with
    | .idle => some (.ok (s.setRw t (.acquire ⟨b, blockno * 2 % 2 ^ 32, write⟩)))
    | _ => none
  | .run t => s.run t
  | .intr c =>
    match s.intr c with
    | .idle => some (.ok (s.setIntr c .acquire))
    | _ => none
  | .irun c => s.irun c
  | .consume =>
    if s.dev.lastAvail = s.disk.avail.idx then none
    else some (.ok { s with dev := { s.dev with
      lastAvail := (s.dev.lastAvail + 1) % W
      started := s.disk.avail.ring (s.dev.lastAvail % NUM) :: s.dev.started } })
  | .finish i =>
    if i ∈ s.dev.started then
      match s.disk.statusOf i with
      -- not a chain of the driver, which the device writes to anyway
      | none => some (.error "dma")
      | some k => some (.ok { s with
        disk := s.disk.setStatus k
        dev := { s.dev with started := s.dev.started.erase i, finished := i :: s.dev.finished } })
    else none
  | .add i =>
    if s.dev.adding = none ∧ i ∈ s.dev.finished then
      some (.ok { s with disk := s.disk.putUsed i, dev := { s.dev with finished := s.dev.finished.erase i, adding := some i } })
    else none
  | .count =>
    if s.dev.adding.isSome then some (.ok { s with disk := s.disk.bumpUsed, dev := { s.dev with adding := none } }) else none

end Sys

/-- After `virtio_disk_init`. -/
structure Init (s : Sys T B) : Prop where
  free : ∀ i < NUM, s.disk.free i = true
  avail : s.disk.avail.idx = 0
  used : s.disk.used.idx = 0
  usedIdx : s.disk.usedIdx = 0
  b : ∀ b, s.b b = false
  lock : s.lock = none
  rw : ∀ t, s.rw t = .idle
  intr : ∀ c, s.intr c = .idle
  dev : s.dev = ⟨0, [], [], none⟩

/-- The calls are on different buffers. -/
def Distinct (s : Sys T B) : Ev T B → Prop
  | .call _ b _ _ => ∀ u, (s.rw u).buf ≠ some b
  | _ => True

/-- The buffers of the chains that were published, that were completed, and whose flag the handler has cleared, in this order. -/
structure Hist (B : Type) where
  published : List B
  completed : List B
  cleared : List B

/-- What a step adds. -/
def Hist.next (s : Sys T B) (e : Ev T B) (h : Hist B) : Hist B :=
  match e with
  | .run t =>
    match s.rw t with
    | .publish b _ _ _ => { h with published := h.published ++ [b] }
    | _ => h
  | .irun c =>
    match s.intr c with
    | .entry id => { h with cleared := h.cleared ++ (s.disk.info id).b.toList }
    | _ => h
  | .count => { h with completed := h.completed ++ (s.dev.adding.bind s.disk.dataOf).toList }
  | _ => h

end Virtio

end Xv6
