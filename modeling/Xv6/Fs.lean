import Xv6.FsProg

/-!
# Blocks and inodes

The functions of `fs.c` that use the buffer cache, as programs.  An in-memory inode is a value that the functions take and
return; its holder has locked it.  There is one device, so the `dev` arguments are left out.
-/

namespace Xv6

/-- The fields of `struct superblock` that `fs.c` uses after the boot. -/
structure Superblock where
  size : UInt32
  ninodes : UInt32
  inodestart : UInt32
  bmapstart : UInt32

def NDIRECT : Nat := 12

def NINDIRECT : Nat := BSIZE / 4

def MAXFILE : Nat := NDIRECT + NINDIRECT

/-- Words of a `struct dinode`. -/
def DIWORDS : Nat := 16

/-- Inodes per block. -/
def IPB : Nat := BSIZE / (4 * DIWORDS)

/-- Bitmap bits per block. -/
def BPB : Nat := BSIZE * 8

/-- Block containing inode `i`. -/
def IBLOCK (i : UInt32) (sb : Superblock) : UInt32 := .ofNat (i.toNat / IPB) + sb.inodestart

/-- Block of free map containing the bit for block `b`. -/
def BBLOCK (b : UInt32) (sb : Superblock) : UInt32 := .ofNat (b.toNat / BPB) + sb.bmapstart

/-- `struct dinode`. -/
structure Dinode where
  type : UInt16
  major : UInt16
  minor : UInt16
  nlink : UInt16
  size : UInt32
  addrs : Fin (NDIRECT + 1) → UInt32

/-- The fields of `struct inode` that its lock protects, and its number. -/
structure Inode extends Dinode where
  inum : UInt32

/-! ### Bytes of a block -/

/-- The mask of bit `bi` in its byte. -/
def bitMask (bi : Nat) : UInt8 := .ofNat (2 ^ (bi % 8))

/-- The byte of bit `bi`. -/
def bitByte (d : Block) (bi : Nat) : UInt8 := if h : bi / 8 < BSIZE then d ⟨bi / 8, h⟩ else 0

/-- `(bp->data[bi/8] & m) != 0`. -/
def bitSet (d : Block) (bi : Nat) : Bool := bitByte d bi &&& bitMask bi != 0

/-- `bp->data[bi/8] |= m`. -/
def setBit (d : Block) (bi : Nat) : Block := fun k => if k.val = bi / 8 then d k ||| bitMask bi else d k

/-- `bp->data[bi/8] &= ~m`. -/
def clearBit (d : Block) (bi : Nat) : Block := fun k => if k.val = bi / 8 then d k &&& ~~~bitMask bi else d k

def lowHalf (w : UInt32) : UInt16 := .ofNat (w.toNat % 2 ^ 16)

def highHalf (w : UInt32) : UInt16 := .ofNat (w.toNat / 2 ^ 16)

def twoHalves (lo hi : UInt16) : UInt32 := .ofNat (lo.toNat + 2 ^ 16 * hi.toNat)

/-- The `k`-th `struct dinode` of a block. -/
def getDinode (d : Block) (k : Nat) : Dinode where
  type := lowHalf (getWord d (DIWORDS * k))
  major := highHalf (getWord d (DIWORDS * k))
  minor := lowHalf (getWord d (DIWORDS * k + 1))
  nlink := highHalf (getWord d (DIWORDS * k + 1))
  size := getWord d (DIWORDS * k + 2)
  addrs i := getWord d (DIWORDS * k + 3 + i.val)

def setDinode (d : Block) (k : Nat) (x : Dinode) : Block :=
  setWords d (DIWORDS * k)
    ([twoHalves x.type x.major, twoHalves x.minor x.nlink, x.size] ++ (List.finRange (NDIRECT + 1)).map x.addrs)

/-! ### Blocks -/

namespace Fs

variable (sb : Superblock)

/-- Zero a block. -/
def bzero (bno : UInt32) : Prog Unit := do
  let bp ← bread bno
  store bp fun _ => 0
  logWrite bp
  brelse bp

/-- The loop of `balloc` over the blocks of the free map. -/
def ballocFrom : List Nat → Prog UInt32
  -- out of blocks
  | [] => pure 0
  | j :: js => do
    let b := j * BPB
    let bp ← bread (BBLOCK (.ofNat b) sb)
    let d ← data bp
    match (List.range (min BPB (sb.size.toNat - b))).find? fun bi => !bitSet d bi with
    | some bi =>
      store bp (setBit d bi)
      logWrite bp
      brelse bp
      bzero (.ofNat (b + bi))
      return .ofNat (b + bi)
    | none =>
      brelse bp
      ballocFrom js

/-- Allocate a zeroed disk block; 0 if there is none. -/
def balloc : Prog UInt32 := ballocFrom sb (List.range ((sb.size.toNat + BPB - 1) / BPB))

/-- Free a disk block. -/
def bfree (b : UInt32) : Prog Unit := do
  let bp ← bread (BBLOCK b sb)
  let bi := b.toNat % BPB
  let d ← data bp
  if !bitSet d bi then panic "freeing free block"
  store bp (clearBit d bi)
  logWrite bp
  brelse bp

/-! ### Inodes -/

/-- The loop of `ialloc`. -/
def iallocFrom (type : UInt16) : List Nat → Prog (Option UInt32)
  | [] => pure none
  | n :: ns => do
    let inum : UInt32 := .ofNat n
    let bp ← bread (IBLOCK inum sb)
    let d ← data bp
    if (getDinode d (n % IPB)).type = 0 then
      store bp (setDinode d (n % IPB) ⟨type, 0, 0, 0, 0, fun _ => 0⟩)
      logWrite bp
      brelse bp
      return some inum
    else
      brelse bp
      iallocFrom type ns

/-- Allocate an inode and give it type `type`. -/
def ialloc (type : UInt16) : Prog (Option UInt32) :=
  iallocFrom sb type ((List.range (sb.ninodes.toNat - 1)).map (· + 1))

/-- Copy a modified in-memory inode to disk. -/
def iupdate (ip : Inode) : Prog Unit := do
  let bp ← bread (IBLOCK ip.inum sb)
  store bp (setDinode (← data bp) (ip.inum.toNat % IPB) ip.toDinode)
  logWrite bp
  brelse bp

/-- The part of `ilock` that reads the inode from disk. -/
def ilock (inum : UInt32) : Prog Inode := do
  let bp ← bread (IBLOCK inum sb)
  let x := getDinode (← data bp) (inum.toNat % IPB)
  brelse bp
  if x.type = 0 then panic "ilock: no type"
  return ⟨x, inum⟩

/-! ### Inode content -/

/-- `ip->addrs[i] = addr`. -/
def setAddr (ip : Inode) (i : Fin (NDIRECT + 1)) (addr : UInt32) : Inode :=
  { ip with addrs := Function.update ip.addrs i addr }

/-- The entry of the indirect block. -/
def indirect : Fin (NDIRECT + 1) := Fin.last NDIRECT

/-- The address `ip->addrs[i]`, of a new block if it was 0; still 0 if there is none. -/
def addrAt (ip : Inode) (i : Fin (NDIRECT + 1)) : Prog (Inode × UInt32) := do
  if ip.addrs i ≠ 0 then return (ip, ip.addrs i)
  else
    let addr ← balloc sb
    if addr = 0 then return (ip, 0) else return (setAddr ip i addr, addr)

/-- The disk block address of the `bn`-th block of `ip`; 0 if out of disk space. -/
def bmap (ip : Inode) (bn : Nat) : Prog (Inode × UInt32) := do
  if h : bn < NDIRECT then addrAt sb ip ⟨bn, Nat.lt_succ_of_lt h⟩
  else if bn - NDIRECT < NINDIRECT then
    let (ip, addr) ← addrAt sb ip indirect
    if addr = 0 then return (ip, 0)
    else
      let bp ← bread addr
      let d ← data bp
      let addr := getWord d (bn - NDIRECT)
      if addr ≠ 0 then
        brelse bp
        return (ip, addr)
      else
        let addr ← balloc sb
        if addr ≠ 0 then
          store bp (setWord (← data bp) (bn - NDIRECT) addr)
          logWrite bp
        brelse bp
        return (ip, addr)
  else panic "bmap: out of range"

/-- The loop of `itrunc` over the direct blocks. -/
def itruncDirect : Inode → List (Fin (NDIRECT + 1)) → Prog Inode
  | ip, [] => pure ip
  | ip, i :: is => do
    if ip.addrs i ≠ 0 then
      bfree sb (ip.addrs i)
      itruncDirect (setAddr ip i 0) is
    else itruncDirect ip is

/-- The loop of `itrunc` over the entries of the indirect block. -/
def itruncIndirect : List UInt32 → Prog Unit
  | [] => pure ()
  | a :: as => do
    if a ≠ 0 then bfree sb a
    itruncIndirect as

/-- Truncate inode (discard contents). -/
def itrunc (ip : Inode) : Prog Inode := do
  let ip ← itruncDirect sb ip ((List.finRange NDIRECT).map Fin.castSucc)
  let ip ←
    if ip.addrs indirect ≠ 0 then do
      let bp ← bread (ip.addrs indirect)
      let d ← data bp
      itruncIndirect sb ((List.range NINDIRECT).map (getWord d))
      brelse bp
      bfree sb (ip.addrs indirect)
      pure (setAddr ip indirect 0)
    else pure ip
  let ip := { ip with size := 0 }
  iupdate sb ip
  return ip

/-- The loop of `readi` from offset `off` on, with `n` bytes left; `tot` is -1 after a failed copy.  Each round reads at
least one byte, so `n` rounds are enough. -/
def readiLoop : Nat → Inode → Nat → Nat → Int → Prog (Inode × Int)
  | 0, ip, _, _, tot => pure (ip, tot)
  | fuel + 1, ip, off, n, tot => do
    if n = 0 then return (ip, tot)
    else
      let (ip, addr) ← bmap sb ip (off / BSIZE)
      if addr = 0 then return (ip, tot)
      else
        let bp ← bread addr
        let m := min n (BSIZE - off % BSIZE)
        if !(← copyout bp (off % BSIZE) m) then
          brelse bp
          return (ip, -1)
        else
          brelse bp
          readiLoop fuel ip (off + m) (n - m) (tot + m)

/-- Read data from inode. -/
def readi (ip : Inode) (off n : UInt32) : Prog (Inode × Int) :=
  if off > ip.size ∨ off + n < off then pure (ip, 0)
  else
    let n := if off + n > ip.size then ip.size - off else n
    readiLoop sb n.toNat ip off.toNat n.toNat 0

/-- The loop of `writei`; the last component of the result is the offset it has reached. -/
def writeiLoop : Nat → Inode → Nat → Nat → Int → Prog (Inode × Int × Nat)
  | 0, ip, off, _, tot => pure (ip, tot, off)
  | fuel + 1, ip, off, n, tot => do
    if n = 0 then return (ip, tot, off)
    else
      let (ip, addr) ← bmap sb ip (off / BSIZE)
      if addr = 0 then return (ip, tot, off)
      else
        let bp ← bread addr
        let m := min n (BSIZE - off % BSIZE)
        if !(← copyin bp (off % BSIZE) m) then
          brelse bp
          return (ip, tot, off)
        else
          logWrite bp
          brelse bp
          writeiLoop fuel ip (off + m) (n - m) (tot + m)

/-- Write data to inode. -/
def writei (ip : Inode) (off n : UInt32) : Prog (Inode × Int) :=
  if off > ip.size ∨ off + n < off then pure (ip, -1)
  else if (off + n).toNat > MAXFILE * BSIZE then pure (ip, -1)
  else do
    let (ip, tot, off) ← writeiLoop sb n.toNat ip off.toNat n.toNat 0
    let ip := if off > ip.size.toNat then { ip with size := .ofNat off } else ip
    iupdate sb ip
    return (ip, tot)

end Fs

end Xv6
