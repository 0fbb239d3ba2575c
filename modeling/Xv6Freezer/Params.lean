import Mathlib

/-! # Parameters

The constants of `kernel/param.h`, `kernel/fs.h` and `mkfs/mkfs.c` that several parts of the system share.
-/

namespace Xv6Freezer

/-- Maximum number of processes. -/
def NPROC : Nat := 64

/-- Open files per process. -/
def NOFILE : Nat := 16

/-- Bytes per page (`kernel/riscv.h`). -/
def PGSIZE : Nat := 4096

/-- Index of `a0` among the 64-bit words of `struct trapframe`, followed by those of `a1` to `a5`. -/
def regA0 : Nat := 14

/-- The blocks any file-system operation may write. -/
def MAXOPBLOCKS : Nat := 10

/-- Maximum number of data blocks in the on-disk log. -/
def LOGSIZE : Nat := MAXOPBLOCKS * 3

/-- The size of the log area. -/
def nlog : Nat := LOGSIZE

/-- Block size. -/
def BSIZE : Nat := 1024

/-- Root i-number. -/
def ROOTINO : Nat := 1

/-- The direct block addresses of an inode. -/
def NDIRECT : Nat := 12

/-- The addresses in its indirect block. -/
def NINDIRECT : Nat := BSIZE / 4

/-- The most blocks a file has. -/
def MAXFILE : Nat := NDIRECT + NINDIRECT

/-- The bytes of a name in a directory entry. -/
def DIRSIZ : Nat := 14

/-- The bytes of a string literal. -/
def chars (s : String) : List UInt8 := s.toList.map fun c => UInt8.ofNat c.toNat

end Xv6Freezer
