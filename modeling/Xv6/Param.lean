import Mathlib.Logic.Basic

/-!
# Sizes fixed by the kernel

The constants of `param.h`, `fs.h` and `riscv.h` that the models use.
-/

namespace Xv6

/-- Maximum number of processes. -/
def NPROC : Nat := 64

/-- Maximum number of containers. -/
def NCONT : Nat := 4

/-- Maximum number of CPUs. -/
def NCPU : Nat := 8

theorem NPROC_pos : 0 < NPROC := by decide

theorem one_lt_NPROC : 1 < NPROC := by decide

theorem two_lt_NPROC : 2 < NPROC := by decide

theorem NCPU_pos : 0 < NCPU := by decide

theorem one_lt_NCPU : 1 < NCPU := by decide

theorem two_lt_NCPU : 2 < NCPU := by decide

theorem one_lt_NCONT : 1 < NCONT := by decide

/-- Open files of a process. -/
def NOFILE : Nat := 16

abbrev Inum := Nat

/-- The inode of the root directory. -/
def ROOTINO : Nat := 1

/-- Bytes of a page. -/
def PGSIZE : Nat := 4096

/-- Maximum number of blocks any file-system operation writes. -/
def MAXOPBLOCKS : Nat := 10

/-- Maximum number of data blocks in the on-disk log. -/
def LOGSIZE : Nat := MAXOPBLOCKS * 3

/-- Size of the disk block cache. -/
def NBUF : Nat := MAXOPBLOCKS * 3

theorem NBUF_pos : 0 < NBUF := by decide

/-- Block size in bytes. -/
def BSIZE : Nat := 1024

/-- The entries of a page table and the bytes of a pipe are numbered below 512. -/
instance neZero_512 : @NeZero Nat Zero.ofOfNat0 512 := ⟨by decide⟩

end Xv6
