import Xv6Freezer.Lib.Wp
import Xv6Freezer.Mkfs.Basic

/-! # Blocks and the contents of inodes

`balloc`, `iupdate`, `bmap` and `writei` of `kernel/fs.c`, and the branch of `filewrite` that calls `writei`.
The disk is the bytes of its blocks as `bread` delivers them. A copy that fails leaves a buffer that is
changed but not logged; `evicted` says whether it is recycled before anyone looks at it.
-/

namespace Xv6Freezer.Inode

open Function Lib
open Mkfs (DINODE IPB BPB)

/-- `struct superblock`. The variables of `balloc` are of type `int`. -/
structure Superblock extends Mkfs.Superblock where
  size_lt : size < 2 ^ 31
  start_pos : 0 < inodestart
  inodes_le : inodestart + (ninodes / IPB + 1) ≤ bmapstart
  bitmap_le : bmapstart + (size / BPB + 1) ≤ size

structure State where
  /-- The bytes of the blocks, one block after another. -/
  disk : Bytes
  outstanding : Nat
  /-- The blocks that the transaction has logged so far. -/
  logged : List Nat
  /-- What the transactions that have ended had logged. -/
  ended : List (List Nat)

abbrev B := StateT State (Except String)

def u32 (x : Nat) : Nat := x % 2 ^ 32

def setBytes (a n : Nat) (f : Nat → UInt8) : B Unit :=
  modify fun s => { s with disk := s.disk.fill a n f }

def log_write (b : Nat) : B Unit := do
  let s ← get
  if s.outstanding < 1 then throw "log_write outside of trans"
  else modify fun s => { s with logged := b :: s.logged }

def begin_op : B Unit := modify fun s => { s with outstanding := s.outstanding + 1, logged := [] }

def end_op : B Unit :=
  modify fun s => { s with outstanding := s.outstanding - 1, ended := s.logged :: s.ended }

/-! ## Blocks -/

section Blocks

variable (sb : Superblock)

def BBLOCK (b : Nat) : Nat := b / BPB + sb.bmapstart

def IBLOCK (i : Nat) : Nat := i / IPB + sb.inodestart

/-- `m = 1 << (bi % 8)`. -/
def bitMask (bi : Nat) : UInt8 := 1 <<< UInt8.ofNat (bi % 8)

def bzero (bno : Nat) : B Unit := do
  setBytes (bno * BSIZE) BSIZE fun _ => 0
  log_write bno

/-- The loops of `balloc` from block `b` on: the first bit of a bitmap block that is clear. -/
def ballocLoop : Nat → Nat → B Nat
  | 0, _ => return 0
  | rounds + 1, b =>
    if b < sb.size then do
      let s ← get
      let data := s.disk.sub (BBLOCK sb b * BSIZE)
      match (List.range (min BPB (sb.size - b))).find? fun bi => data (bi / 8) &&& bitMask bi = 0 with
      | some bi =>
        setBytes (BBLOCK sb b * BSIZE + bi / 8) 1 fun _ => data (bi / 8) ||| bitMask bi
        log_write (BBLOCK sb b)
        bzero (b + bi)
        return b + bi
      | none => ballocLoop rounds (b + BPB)
    else return 0

def balloc : B Nat := ballocLoop sb (sb.size / BPB + 1) 0

/-! ## Inodes -/

/-- `struct inode`, without the fields of the table. Elements of `addrs` past `NDIRECT` are 0. -/
structure Inode where
  inum : Nat
  type : Nat
  major : Nat
  minor : Nat
  nlink : Nat
  size : Nat
  addrs : Nat → Nat

/-- Where `struct dinode` of inode `i` is. -/
def dinodeOff (i : Nat) : Nat := IBLOCK sb i * BSIZE + i % IPB * DINODE

def byteOf (x i : Nat) : UInt8 := UInt8.ofNat (x / 256 ^ i)

def Inode.bytes (ip : Inode) : Bytes := fun i =>
  if i < 2 then byteOf ip.type i
  else if i < 4 then byteOf ip.major (i - 2)
  else if i < 6 then byteOf ip.minor (i - 4)
  else if i < 8 then byteOf ip.nlink (i - 6)
  else if i < 12 then byteOf ip.size (i - 8)
  else byteOf (ip.addrs ((i - 12) / 4)) ((i - 12) % 4)

def iupdate (ip : Inode) : B Unit := do
  setBytes (dinodeOff sb ip.inum) DINODE ip.bytes
  log_write (IBLOCK sb ip.inum)

/-- The block in `ip->addrs[k]`, allocated if there is none. -/
def bmapAddr (ip : Inode) (k : Nat) : B (Nat × Inode) :=
  if ip.addrs k = 0 then do
    let addr ← balloc sb
    if addr = 0 then return (0, ip)
    else return (addr, { ip with addrs := update ip.addrs k addr })
  else return (ip.addrs k, ip)

def bmap (ip : Inode) (bn : Nat) : B (Nat × Inode) :=
  if bn < NDIRECT then bmapAddr sb ip bn
  else if bn - NDIRECT < NINDIRECT then do
    let (addr, ip) ← bmapAddr sb ip NDIRECT
    if addr = 0 then return (0, ip)
    else
      let s ← get
      let a := s.disk.loadLE (addr * BSIZE + 4 * (bn - NDIRECT)) 4
      if a = 0 then
        let b ← balloc sb
        if b ≠ 0 then
          setBytes (addr * BSIZE + 4 * (bn - NDIRECT)) 4 fun i => byteOf b i
          log_write addr
          return (b, ip)
        else return (0, ip)
      else return (a, ip)
  else throw "bmap: out of range"

/-! ## Writing -/

/-- The loop of `writei`: the inode, `off` and `tot`. `src` is what can be read of the source. -/
def writeLoop (src : List UInt8) (evicted : Bool) (n : Nat) :
    Nat → Inode → Nat → Nat → B (Inode × Nat × Nat)
  | 0, ip, off, tot => return (ip, off, tot)
  | rounds + 1, ip, off, tot =>
    if tot < n then do
      let (addr, ip) ← bmap sb ip (off / BSIZE)
      if addr = 0 then return (ip, off, tot)
      else
        let m := min (n - tot) (BSIZE - off % BSIZE)
        let bs := (src.drop tot).take m
        if bs.length < m then
          if evicted then return (ip, off, tot)
          else
            setBytes (addr * BSIZE + off % BSIZE) bs.length fun i => bs.getD i 0
            return (ip, off, tot)
        else
          setBytes (addr * BSIZE + off % BSIZE) m fun i => bs.getD i 0
          log_write addr
          writeLoop src evicted n rounds ip (off + m) (tot + m)
    else return (ip, off, tot)

def writei (ip : Inode) (src : List UInt8) (evicted : Bool) (off n : Nat) : B (Int × Inode) :=
  if off > ip.size ∨ u32 (off + n) < off then return (-1, ip)
  else if u32 (off + n) > MAXFILE * BSIZE then return (-1, ip)
  else do
    let (ip, off, tot) ← writeLoop sb src evicted n n ip off 0
    let ip := if off > ip.size then { ip with size := off } else ip
    iupdate sb ip
    return (tot, ip)

end Blocks

/-- The block numbers of an inode: `addrs`, followed by the contents of the indirect block. -/
def slot (d : Bytes) (ip : Inode) (k : Nat) : Nat :=
  if k ≤ NDIRECT then ip.addrs k
  else if ip.addrs NDIRECT = 0 then 0
  else d.loadLE (ip.addrs NDIRECT * BSIZE + 4 * (k - NDIRECT - 1)) 4

/-- The slot of block `bn` of a file. -/
def slotOf (bn : Nat) : Nat := if bn < NDIRECT then bn else bn + 1

structure HoleFree (d : Bytes) (ip : Inode) : Prop where
  size_le : ip.size ≤ MAXFILE * BSIZE
  mapped : ∀ bn, bn * BSIZE < ip.size → slot d ip (slotOf bn) ≠ 0

/-! ## `filewrite` -/

def maxChunk : Nat := (MAXOPBLOCKS - 1 - 1 - 2) / 2 * BSIZE

/-- The loop of `filewrite` for an inode: the inode, `f->off` and `i`. -/
def filewriteLoop (sb : Superblock) (src : List UInt8) (evicted : Bool) (n : Int) :
    Nat → Inode → Nat → Nat → B (Inode × Nat × Nat)
  | 0, ip, off, i => return (ip, off, i)
  | rounds + 1, ip, off, i =>
    if (i : Int) < n then do
      let n1 := min (n - i).toNat maxChunk
      begin_op
      let (r, ip) ← writei sb ip (src.drop i) evicted off n1
      let off := if r > 0 then u32 (off + r.toNat) else off
      end_op
      if r ≠ n1 then return (ip, off, i)
      else filewriteLoop sb src evicted n rounds ip off (i + n1)
    else return (ip, off, i)

/-- `filewrite(f, addr, n)` for a writable file of an inode: the result, the inode and `f->off`. -/
def filewrite (sb : Superblock) (ip : Inode) (off : Nat) (src : List UInt8) (evicted : Bool) (n : Int) :
    B (Int × Inode × Nat) := do
  let (ip, off, i) ← filewriteLoop sb src evicted n n.toNat ip off 0
  return (if (i : Int) = n then n else -1, ip, off)

end Xv6Freezer.Inode
