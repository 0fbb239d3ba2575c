import Xv6Freezer.Lib.Bytes
import Xv6Freezer.Params

/-! # `mkfs`

`mkfs/mkfs.c` builds the file system image, a file of bytes that is read and written a sector at a time.
`none` stands for an assertion that fails and for `die`. `freeinode` and `freeblock` are natural numbers: the
first is at most the number of arguments, the second stays below the number of sectors.
-/

namespace Xv6Freezer.Mkfs

open Function Lib

/-! ## Constants -/

def FSSIZE : Nat := 2000

def NINODES : Nat := 200

def DINODE : Nat := 64

def IPB : Nat := BSIZE / DINODE

def BPB : Nat := BSIZE * 8

def T_DIR : Nat := 1
def T_FILE : Nat := 2

def nbitmap : Nat := FSSIZE / BPB + 1
def ninodeblocks : Nat := NINODES / IPB + 1

def nmeta : Nat := 2 + nlog + ninodeblocks + nbitmap

structure Superblock where
  magic : Nat
  size : Nat
  nblocks : Nat
  ninodes : Nat
  nlog : Nat
  logstart : Nat
  inodestart : Nat
  bmapstart : Nat

/-- The variable `sb`, as `main` sets it. -/
def sb : Superblock where
  magic := 0x10203040
  size := FSSIZE
  nblocks := FSSIZE - nmeta
  ninodes := NINODES
  nlog := nlog
  logstart := 2
  inodestart := 2 + nlog
  bmapstart := 2 + nlog + ninodeblocks

def zeroes : Bytes := fun _ => 0

def Superblock.bytes (b : Superblock) : Bytes :=
  let m := (zeroes.storeLE 0 4 b.magic).storeLE 4 4 b.size
  let m := (m.storeLE 8 4 b.nblocks).storeLE 12 4 b.ninodes
  let m := (m.storeLE 16 4 b.nlog).storeLE 20 4 b.logstart
  (m.storeLE 24 4 b.inodestart).storeLE 28 4 b.bmapstart

/-! ## Sectors -/

structure State where
  image : Bytes
  fsize : Nat
  freeinode : Nat
  freeblock : Nat

/-- `sec * BSIZE`, a `uint`. -/
def secOff (sec : Nat) : Nat := sec * BSIZE % 2 ^ 32

/-- `rsect`: reading past the end of the file is an error. -/
def rsect (st : State) (sec : Nat) : Option Bytes :=
  if secOff sec + BSIZE ≤ st.fsize then some (st.image.sub (secOff sec)) else none

/-- `wsect`: writing past the end makes the file longer. -/
def wsect (st : State) (sec : Nat) (buf : Bytes) : State :=
  { st with
    image := st.image.fill (secOff sec) BSIZE buf
    fsize := max st.fsize (secOff sec + BSIZE) }

/-! ## Inodes -/

def size (din : Bytes) : Nat := din.loadLE 8 4

def addrs (din : Bytes) (k : Nat) : Nat := din.loadLE (12 + 4 * k) 4

def setSize (din : Bytes) (n : Nat) : Bytes := din.storeLE 8 4 n

def setAddr (din : Bytes) (k b : Nat) : Bytes := din.storeLE (12 + 4 * k) 4 b

def IBLOCK (inum : Nat) : Nat := inum / IPB + sb.inodestart

def rinode (st : State) (inum : Nat) : Option Bytes :=
  (rsect st (IBLOCK inum)).map fun buf => buf.sub (inum % IPB * DINODE)

def winode (st : State) (inum : Nat) (din : Bytes) : Option State :=
  (rsect st (IBLOCK inum)).map fun buf =>
    wsect st (IBLOCK inum) (buf.fill (inum % IPB * DINODE) DINODE din)

/-- The inode that `ialloc` writes. -/
def newInode (type : Nat) : Bytes :=
  setSize ((zeroes.storeLE 0 2 type).storeLE 6 2 1) 0

def ialloc (st : State) (type : Nat) : Option (State × Nat) :=
  (winode { st with freeinode := st.freeinode + 1 } st.freeinode (newInode type)).map
    fun st' => (st', st.freeinode)

/-! ## Appending to a file -/

def allocAddr (st : State) (din : Bytes) (k : Nat) : State × Bytes :=
  if addrs din k = 0 then
    ({ st with freeblock := st.freeblock + 1 }, setAddr din k st.freeblock)
  else (st, din)

/-- The sector of block `fbn` of the file, allocated if necessary. -/
def blockFor (st : State) (din : Bytes) (fbn : Nat) : Option (State × Bytes × Nat) :=
  if fbn < NDIRECT then
    let r := allocAddr st din fbn
    some (r.1, r.2, addrs r.2 fbn)
  else
    let r := allocAddr st din NDIRECT
    (rsect r.1 (addrs r.2 NDIRECT)).map fun indirect =>
      if indirect.loadLE (4 * (fbn - NDIRECT)) 4 = 0 then
        let indirect := indirect.storeLE (4 * (fbn - NDIRECT)) 4 r.1.freeblock
        (wsect { r.1 with freeblock := r.1.freeblock + 1 } (addrs r.2 NDIRECT) indirect, r.2,
          indirect.loadLE (4 * (fbn - NDIRECT)) 4)
      else (r.1, r.2, indirect.loadLE (4 * (fbn - NDIRECT)) 4)

/-- The number of bytes of `p` that go into the block at offset `off`. -/
def roundSize (off : Nat) (p : List UInt8) : Nat :=
  min p.length ((off / BSIZE + 1) * BSIZE - off)

def appendRound (st : State) (din : Bytes) (off : Nat) (p : List UInt8) : Option (State × Bytes) :=
  let fbn := off / BSIZE
  if fbn < MAXFILE then
    (blockFor st din fbn).bind fun (st, din, x) =>
      (rsect st x).map fun buf =>
        (wsect st x (buf.fill (off - fbn * BSIZE) (roundSize off p) fun i => p.getD i 0), din)
  else none

/-- The loop of `iappend`, with at most as many rounds as bytes of `p`. -/
def appendLoop : Nat → State → Bytes → Nat → List UInt8 → Option (State × Bytes × Nat)
  | 0, st, din, off, _ => some (st, din, off)
  | n + 1, st, din, off, p =>
    if p = [] then some (st, din, off)
    else (appendRound st din off p).bind fun (st, din) =>
      appendLoop n st din (off + roundSize off p) (p.drop (roundSize off p))

def iappend (st : State) (inum : Nat) (p : List UInt8) : Option State :=
  (rinode st inum).bind fun din =>
    (appendLoop p.length st din (size din) p).bind fun (st, din, off) =>
      winode st inum (setSize din off)

/-! ## The bitmap -/

def bitmap (used : Nat) : Bytes :=
  (List.range used).foldl (fun buf i => update buf (i / 8) (buf (i / 8) ||| 1 <<< UInt8.ofNat (i % 8)))
    zeroes

def balloc (st : State) (used : Nat) : Option State :=
  if used < BPB then some (wsect st sb.bmapstart (bitmap used)) else none

/-! ## `main` -/

/-- What one `read` of a file returns: at least one byte and at most the buffer. -/
def Chunk : Type := { p : List UInt8 // p ≠ [] ∧ p.length ≤ BSIZE }

/-- An input file: its name, and what `read` returns until the end; `none` if it cannot be opened. -/
structure Input where
  argv : List UInt8
  reads : Option (List Chunk)

/-- Get rid of `"user/"`. -/
def stripUser (name : List UInt8) : List UInt8 :=
  if (chars "user/").isPrefixOf name then name.drop 5 else name

/-- Skip a leading `_`. -/
def stripUnderscore (name : List UInt8) : List UInt8 :=
  if name.head? = (chars "_").head? then name.drop 1 else name

/-- A directory entry: the inode number, and the name padded with zeros. -/
def dirent (inum : Nat) (name : List UInt8) : List UInt8 :=
  UInt8.ofNat inum :: UInt8.ofNat (inum / 256) ::
    (List.range DIRSIZ).map fun i => name.getD i 0

def addFile (st : State) (input : Input) : Option State :=
  if (chars "/").head? ∈ (stripUser input.argv).map some then none
  else input.reads.bind fun reads =>
    let shortname := stripUnderscore (stripUser input.argv)
    if shortname.length ≤ DIRSIZ then
      (ialloc st T_FILE).bind fun (st, inum) =>
        (iappend st ROOTINO (dirent inum shortname)).bind fun st =>
          reads.foldlM (fun st p => iappend st inum p.val) st
    else none

def zeroed : State :=
  (List.range FSSIZE).foldl (fun st i => wsect st i zeroes) ⟨zeroes, 0, 1, nmeta⟩

def withRoot : Option State :=
  (ialloc (wsect zeroed 1 sb.bytes) T_DIR).bind fun (st, rootino) =>
    if rootino = ROOTINO then
      (iappend st rootino (dirent rootino (chars "."))).bind fun st =>
        iappend st rootino (dirent rootino (chars ".."))
    else none

def fixRoot (st : State) : Option State :=
  (rinode st ROOTINO).bind fun din =>
    winode st ROOTINO (setSize din ((size din / BSIZE + 1) * BSIZE))

/-- `main`. -/
def mkfs (inputs : List Input) : Option State :=
  withRoot.bind fun st =>
    (inputs.foldlM addFile st).bind fun st =>
      (fixRoot st).bind fun st => balloc st st.freeblock

end Xv6Freezer.Mkfs
