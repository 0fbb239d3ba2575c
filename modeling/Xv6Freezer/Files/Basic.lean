import Xv6Freezer.Kernel.Basic
import Xv6Freezer.Lib.Prog

/-! # Inodes, directories and open files

The data of `fs.c`, `file.c` and `sysfile.c` that processes share, and the atomic operations on them: a
section of code under one spinlock, or an access to a disk block between `bread` and `brelse`. Inodes are
records, the entries of a directory are slots, and of the bitmap only the number of free blocks matters.
-/

namespace Xv6Freezer.Files

open Lib Function

/-! ## Parameters (`kernel/param.h`, `kernel/fs.h`) -/

def NFILE : Nat := 100

def NINODE : Nat := 50

def NDEV : Nat := 10

def ROOTDEV : Nat := 1

def DIRENT : Nat := 16

def int16 (x : Int) : Int := Int.bmod x (2 ^ 16)

/-! ## Data -/

/-- `type` of an inode; 0 is `none`. -/
inductive FileType where
  | none | dir | file | device
  deriving DecidableEq

structure Dinode where
  type : FileType
  major : Int
  minor : Int
  nlink : Int
  size : Nat
  addrs : Nat → Nat

/-- `memset(dip, 0, sizeof(*dip)); dip->type = type;` -/
def Dinode.fresh (type : FileType) : Dinode :=
  { type := type, major := 0, minor := 0, nlink := 0, size := 0, addrs := fun _ => 0 }

/-- `struct inode`; `d` are the fields copied from the disk. -/
structure Inode (P : Type) where
  dev : Nat
  inum : Nat
  ref : Int
  lock : Option P
  valid : Bool
  d : Dinode

abbrev Name := List UInt8

structure Dirent where
  inum : Nat
  name : Name
  /-- History: which allocation of the inode the entry was made for. -/
  gen : Nat

inductive FdType where
  | none | pipe | inode | device
  deriving DecidableEq

structure File where
  ref : Int
  type : FdType
  readable : Bool
  writable : Bool
  pipe : Nat
  ip : Nat
  off : Nat
  major : Int

/-- The page of a pipe, as far as it is opened and closed. -/
structure PipePage where
  readopen : Bool
  writeopen : Bool
  /-- History: how often the page has been allocated for a pipe. -/
  allocs : Nat
  /-- History: how often it has been freed again. -/
  frees : Nat

inductive Stage where
  | unused | embryo | alive | zombie
  deriving DecidableEq

/-- `struct proc`, as far as it has to do with files. -/
structure Proc where
  stage : Stage
  ofile : Nat → Option Nat
  cwd : Option Nat

structure State (P : Type) where
  ninodes : Nat
  /-- The inodes on the disk, as the buffer cache has them. -/
  dinode : Nat → Dinode
  ind : Nat → Nat → Nat
  slot : Nat → Nat → Dirent
  nfree : Nat
  inode : Nat → Inode P
  file : Nat → File
  pipe : Nat → PipePage
  proc : P → Proc
  /-- History: how often an inode number has been allocated. -/
  gen : Nat → Nat
  /-- History: the type an inode was allocated with, until somebody holds it loaded. -/
  unread : Nat → Option FileType

/-- What the environment answers: numbers (block numbers, the success of an allocation or access, the contents
of a file) and the slot that `allocproc` or `wait` finds. -/
structure Env (P : Type) where
  x : Nat → Nat
  q : P

/-! ## The blocks of an inode -/

/-- The blocks of an inode, and the number of free blocks left. -/
structure Blocks where
  addrs : Nat → Nat
  ind : Nat → Nat
  nfree : Nat

namespace Blocks

/-- `balloc`, where the environment chooses the block. -/
def balloc (b : Blocks) (x : Nat) : Nat × Blocks :=
  if b.nfree = 0 then (0, b) else (x + 1, { b with nfree := b.nfree - 1 })

def bmapDirect (b : Blocks) (bn x : Nat) : Nat × Blocks :=
  if b.addrs bn ≠ 0 then (b.addrs bn, b)
  else
    let r := b.balloc x
    if r.1 = 0 then r else (r.1, { r.2 with addrs := update b.addrs bn r.1 })

/-- The indirect block in `bmap`. A new one is full of zeros. -/
def bmapInd (b : Blocks) (x : Nat) : Nat × Blocks :=
  if b.addrs NDIRECT ≠ 0 then (b.addrs NDIRECT, b)
  else
    let r := b.balloc x
    if r.1 = 0 then r
    else (r.1, { r.2 with addrs := update b.addrs NDIRECT r.1, ind := fun _ => 0 })

/-- The blocks named in the indirect block, in `bmap`. -/
def bmapSlot (b : Blocks) (j x : Nat) : Nat × Blocks :=
  if b.ind j ≠ 0 then (b.ind j, b)
  else
    let r := b.balloc x
    if r.1 = 0 then r else (r.1, { r.2 with ind := update b.ind j r.1 })

/-- `bmap`: the block number, or 0; nothing stands for `panic("bmap: out of range")`. -/
def bmap (b : Blocks) (bn x y : Nat) : Option (Nat × Blocks) :=
  if bn < NDIRECT then some (b.bmapDirect bn x)
  else if bn - NDIRECT < NINDIRECT then
    let r := b.bmapInd x
    if r.1 = 0 then some r else some (r.2.bmapSlot (bn - NDIRECT) y)
  else none

end Blocks

/-- The loop of `readi`: `tot` of `n` bytes have been read. Every third answer says whether `copyout` fails. -/
def readLoop (x : Nat → Nat) (n : Nat) : Nat → Blocks → Nat → Nat → Option (Int × Blocks)
  | 0, b, _, tot => some (tot, b)
  | k + 1, b, off, tot =>
    if n ≤ tot then some (tot, b)
    else
      match b.bmap (off / BSIZE) (x (3 * k)) (x (3 * k + 1)) with
      | none => none
      | some (addr, b) =>
        if addr = 0 then some (tot, b)
        else if x (3 * k + 2) = 0 then some (-1, b)
        else
          let m := min (n - tot) (BSIZE - off % BSIZE)
          readLoop x n k b (off + m) (tot + m)

/-- The loop of `writei`: the bytes written, and the offset. Every third answer says whether `copyin` fails. -/
def writeLoop (x : Nat → Nat) (n : Nat) : Nat → Blocks → Nat → Nat → Option (Nat × Nat × Blocks)
  | 0, b, off, tot => some (tot, off, b)
  | k + 1, b, off, tot =>
    if n ≤ tot then some (tot, off, b)
    else
      match b.bmap (off / BSIZE) (x (3 * k)) (x (3 * k + 1)) with
      | none => none
      | some (addr, b) =>
        if addr = 0 then some (tot, off, b)
        else if x (3 * k + 2) = 0 then some (tot, off, b)
        else
          let m := min (n - tot) (BSIZE - off % BSIZE)
          writeLoop x n k b (off + m) (tot + m)

/-! ## Operations -/

inductive Op (P : Type) where
  | panic (msg : String)
  | begin_op
  | end_op
  /-- An answer of the environment. -/
  | ask
  | myproc
  | setOfile (fd : Nat) (f : Option Nat)
  | setCwd (ip : Option Nat)
  | iget (dev inum : Nat)
  | idup (ip : Nat)
  /-- `ilock`: the test of `ip->ref`. -/
  | ilockCheck (ip : Nat)
  | acquiresleep (ip : Nat)
  | getInode (ip : Nat)
  /-- `ilock`: the inode is read from the disk. -/
  | loadInode (ip : Nat)
  | iunlock (ip : Nat)
  | releasesleep (ip : Nat)
  /-- A store to the fields of an inode. -/
  | setInode (ip : Nat) (f : Dinode → Dinode)
  | iupdate (ip : Nat)
  | clearValid (ip : Nat)
  /-- `iput`: the first section under `itable.lock`; is the inode to be freed? -/
  | iputTest (ip : Nat)
  /-- `iput`: `ip->ref--` after the inode has been freed. -/
  | iputDrop (ip : Nat)
  | bfree
  /-- The number in a slot of the indirect block. -/
  | getInd (ip j : Nat)
  /-- `ialloc`: is this inode free? -/
  | iallocTry (inum : Nat) (type : FileType)
  | getNinodes
  /-- `readi` of one directory entry; nothing if less than an entry was read. -/
  | readDirent (ip off : Nat)
  /-- `writei` of one directory entry, up to `iupdate`. -/
  | writeDirent (ip off inum : Nat) (name : Name)
  | readi (ip off n : Nat)
  /-- `writei` from user memory, up to `iupdate`. -/
  | writei (ip off n : Nat)
  | filealloc
  | filedup (f : Nat)
  /-- `fileclose`: the section under `ftable.lock`; the old contents if this was the last reference. -/
  | fileclose (f : Nat)
  | getFile (f : Nat)
  /-- `sys_open`: the stores to the fields of the new file. -/
  | openInode (f ip : Nat) (type : FdType) (readable writable : Bool) (major : Int)
  /-- `pipealloc`: the stores to the fields of one of the new files. -/
  | openPipe (f pi : Nat) (writable : Bool)
  | setOff (f off : Nat)
  /-- `pipealloc`: `kalloc` and the initialisation of the page. -/
  | newPipe
  | pipeclose (pi : Nat) (writable : Bool)
  /-- `allocproc` and `uvmcopy` in `fork`. -/
  | allocproc
  | childOfile (np : P) (fd f : Nat)
  | childCwd (np : P) (ip : Nat)
  /-- `np->state = RUNNABLE`. -/
  | childRun (np : P)
  /-- `p->state = ZOMBIE`. -/
  | zombie
  /-- `wait`: a zombie is freed. -/
  | reap

abbrev Res {P : Type} : Op P → Type
  | .panic _ => Empty
  | .ask | .getInd _ _ | .getNinodes => Nat
  | .myproc => Proc
  | .iget _ _ => Nat
  | .getInode _ => Inode P
  | .iputTest _ | .iallocTry _ _ => Bool
  | .readDirent _ _ => Option Dirent
  | .writeDirent _ _ _ _ | .readi _ _ _ | .writei _ _ _ => Int
  | .filealloc | .newPipe => Option Nat
  | .fileclose _ => Option File
  | .getFile _ => File
  | .allocproc => Option P
  | _ => Unit

namespace State

variable {P : Type} [DecidableEq P]

/-! ### The inode table -/

def setEntry (s : State P) (e : Nat) (f : Inode P → Inode P) : State P :=
  { s with inode := update s.inode e (f (s.inode e)) }

/-- Change the fields of an inode that are copied from the disk. -/
def setD (s : State P) (e : Nat) (f : Dinode → Dinode) : State P :=
  s.setEntry e fun i => { i with d := f i.d }

def iget (s : State P) (dev inum : Nat) : Outcome Nat (State P) :=
  match (List.range NINODE).find? fun e =>
    0 < (s.inode e).ref ∧ (s.inode e).dev = dev ∧ (s.inode e).inum = inum with
  | some e => .done e (s.setEntry e fun i => { i with ref := i.ref + 1 })
  | none =>
    match (List.range NINODE).find? fun e => (s.inode e).ref = 0 with
    | some e =>
      .done e (s.setEntry e fun i => { i with dev := dev, inum := inum, ref := 1, valid := false })
    | none => .panic "iget: no inodes"

def acquiresleep (s : State P) (p : P) (e : Nat) : State P :=
  { s.setEntry e fun i => { i with lock := some p } with
    unread := if (s.inode e).valid = true then update s.unread (s.inode e).inum none else s.unread }

def loadInode (s : State P) (e : Nat) : State P :=
  { s.setEntry e fun i => { i with d := s.dinode i.inum, valid := true } with
    unread := update s.unread (s.inode e).inum none }

/-- The first section of `iput`. Waiting for the sleep-lock here would call `sched` with `itable.lock` held. -/
def iputTest (s : State P) (p : P) (e : Nat) : Outcome Bool (State P) :=
  let i := s.inode e
  if i.ref = 1 ∧ i.valid = true ∧ i.d.nlink = 0 then
    if i.lock = none then .done true (s.acquiresleep p e) else .panic "sched locks"
  else .done false (s.setEntry e fun i => { i with ref := i.ref - 1 })

def iallocTry (s : State P) (inum : Nat) (type : FileType) : Outcome Bool (State P) :=
  if (s.dinode inum).type = .none then
    .done true { s with
      dinode := update s.dinode inum (Dinode.fresh type)
      gen := update s.gen inum (s.gen inum + 1)
      unread := update s.unread inum (some type) }
  else .done false s

/-! ### Contents -/

/-- The blocks of the inode in entry `e`, as its sleep-lock protects them. -/
def blocks (s : State P) (e : Nat) : Blocks :=
  { addrs := (s.inode e).d.addrs, ind := s.ind (s.inode e).inum, nfree := s.nfree }

/-- Store the blocks of an inode, and a size. -/
def setBlocks (s : State P) (e : Nat) (b : Blocks) (size : Nat) : State P :=
  { s.setD e fun d => { d with addrs := b.addrs, size := size } with
    ind := update s.ind (s.inode e).inum b.ind
    nfree := b.nfree }

def readDirent (s : State P) (e off : Nat) (x : Nat → Nat) : Outcome (Option Dirent) (State P) :=
  let size := (s.inode e).d.size
  if size < off + DIRENT then .done none s
  else
    match (s.blocks e).bmap (off / BSIZE) (x 0) (x 1) with
    | none => .panic "bmap: out of range"
    | some (addr, b) =>
      .done (if addr = 0 then none else some (s.slot (s.inode e).inum (off / DIRENT)))
        (s.setBlocks e b size)

/-- `writei` of a directory entry, up to `iupdate`. `struct dirent` holds 16 bits of the inode number. -/
def writeDirent (s : State P) (e off inum : Nat) (name : Name) (x : Nat → Nat) :
    Outcome Int (State P) :=
  let size := (s.inode e).d.size
  if size < off ∨ MAXFILE * BSIZE < off + DIRENT then .done (-1) s
  else
    match (s.blocks e).bmap (off / BSIZE) (x 0) (x 1) with
    | none => .panic "bmap: out of range"
    | some (addr, b) =>
      if addr = 0 then .done 0 (s.setBlocks e b size)
      else
        let de : Dirent := ⟨inum % 2 ^ 16, name, s.gen (inum % 2 ^ 16)⟩
        let i := (s.inode e).inum
        .done DIRENT { s.setBlocks e b (max size (off + DIRENT)) with
          slot := update s.slot i (update (s.slot i) (off / DIRENT) de) }

def readi (s : State P) (x : Nat → Nat) (e off n : Nat) : Outcome Int (State P) :=
  let size := (s.inode e).d.size
  if size < off ∨ (off + n) % 2 ^ 32 < off then .done 0 s
  else
    let n := if size < off + n then size - off else n
    match readLoop x n (n + 1) (s.blocks e) off 0 with
    | none => .panic "bmap: out of range"
    | some (r, b) => .done r (s.setBlocks e b size)

def writei (s : State P) (x : Nat → Nat) (e off n : Nat) : Outcome Int (State P) :=
  let size := (s.inode e).d.size
  if size < off ∨ (off + n) % 2 ^ 32 < off ∨ MAXFILE * BSIZE < off + n then .done (-1) s
  else
    match writeLoop x n (n + 1) (s.blocks e) off 0 with
    | none => .panic "bmap: out of range"
    | some (tot, off, b) => .done tot (s.setBlocks e b (max size off))

/-! ### The file table and pipes -/

def setFile (s : State P) (f : Nat) (g : File → File) : State P :=
  { s with file := update s.file f (g (s.file f)) }

def filealloc (s : State P) : Outcome (Option Nat) (State P) :=
  match (List.range NFILE).find? fun f => (s.file f).ref = 0 with
  | some f => .done (some f) (s.setFile f fun f => { f with ref := 1 })
  | none => .done none s

def filedup (s : State P) (f : Nat) : Outcome Unit (State P) :=
  if (s.file f).ref < 1 then .panic "filedup"
  else .done () (s.setFile f fun f => { f with ref := f.ref + 1 })

def fileclose (s : State P) (f : Nat) : Outcome (Option File) (State P) :=
  if (s.file f).ref < 1 then .panic "fileclose"
  else if 0 < (s.file f).ref - 1 then
    .done none (s.setFile f fun f => { f with ref := f.ref - 1 })
  else .done (some (s.file f)) (s.setFile f fun f => { f with ref := 0, type := .none })

def setPipe (s : State P) (pi : Nat) (g : PipePage → PipePage) : State P :=
  { s with pipe := update s.pipe pi (g (s.pipe pi)) }

/-- `kalloc` in `pipealloc`: a free page, or 0. -/
def newPipe (s : State P) (pi : Nat) : Outcome (Option Nat) (State P) :=
  if (s.pipe pi).allocs = (s.pipe pi).frees then
    .done (some pi) (s.setPipe pi fun g =>
      { g with readopen := true, writeopen := true, allocs := g.allocs + 1 })
  else .done none s

def pipeclose (s : State P) (pi : Nat) (writable : Bool) : State P :=
  s.setPipe pi fun g =>
    let g := if writable then { g with writeopen := false } else { g with readopen := false }
    if g.readopen = false ∧ g.writeopen = false then { g with frees := g.frees + 1 } else g

/-! ### Processes -/

def setProc (s : State P) (p : P) (g : Proc → Proc) : State P :=
  { s with proc := update s.proc p (g (s.proc p)) }

def allocproc (s : State P) (e : Env P) : Outcome (Option P) (State P) :=
  if (s.proc e.q).stage = .unused ∧ e.x 0 ≠ 0 then
    .done (some e.q) (s.setProc e.q fun q => { q with stage := .embryo })
  else .done none s

def reap (s : State P) (q : P) : State P :=
  if (s.proc q).stage = .zombie then s.setProc q fun q => { q with stage := .unused } else s

end State

variable {P : Type} [DecidableEq P]

def exec (p : P) (o : Op P) (e : Env P) (s : State P) : Outcome (Res o) (State P) :=
  match o with
  | .panic msg => .panic msg
  | .begin_op => .done () s
  | .end_op => .done () s
  | .ask => .done (e.x 0) s
  | .myproc => .done (s.proc p) s
  | .setOfile fd f => .done () (s.setProc p fun q => { q with ofile := update q.ofile fd f })
  | .setCwd ip => .done () (s.setProc p fun q => { q with cwd := ip })
  | .iget dev inum => s.iget dev inum
  | .idup ip => .done () (s.setEntry ip fun i => { i with ref := i.ref + 1 })
  | .ilockCheck ip => if (s.inode ip).ref < 1 then .panic "ilock" else .done () s
  | .acquiresleep ip =>
    if (s.inode ip).lock = none then .done () (s.acquiresleep p ip) else .blocked
  | .getInode ip => .done (s.inode ip) s
  | .loadInode ip => .done () (s.loadInode ip)
  | .iunlock ip =>
    if (s.inode ip).lock ≠ some p ∨ (s.inode ip).ref < 1 then .panic "iunlock"
    else .done () (s.setEntry ip fun i => { i with lock := none })
  | .releasesleep ip => .done () (s.setEntry ip fun i => { i with lock := none })
  | .setInode ip f => .done () (s.setD ip f)
  | .iupdate ip => .done () { s with dinode := update s.dinode (s.inode ip).inum (s.inode ip).d }
  | .clearValid ip => .done () (s.setEntry ip fun i => { i with valid := false })
  | .iputTest ip => s.iputTest p ip
  | .iputDrop ip => .done () (s.setEntry ip fun i => { i with ref := i.ref - 1 })
  | .bfree => .done () { s with nfree := s.nfree + 1 }
  | .getInd ip j => .done (s.ind (s.inode ip).inum j) s
  | .iallocTry inum type => s.iallocTry inum type
  | .getNinodes => .done s.ninodes s
  | .readDirent ip off => s.readDirent ip off e.x
  | .writeDirent ip off inum name => s.writeDirent ip off inum name e.x
  | .readi ip off n => s.readi e.x ip off n
  | .writei ip off n => s.writei e.x ip off n
  | .filealloc => s.filealloc
  | .filedup f => s.filedup f
  | .fileclose f => s.fileclose f
  | .getFile f => .done (s.file f) s
  | .openInode f ip type readable writable major =>
    .done () (s.setFile f fun f =>
      { f with type := type, ip := ip, off := 0, readable := readable, writable := writable
               major := major })
  | .openPipe f pi writable =>
    .done () (s.setFile f fun f =>
      { f with type := .pipe, pipe := pi, readable := !writable, writable := writable })
  | .setOff f off => .done () (s.setFile f fun f => { f with off := off })
  | .newPipe => s.newPipe (e.x 0)
  | .pipeclose pi writable => .done () (s.pipeclose pi writable)
  | .allocproc => s.allocproc e
  | .childOfile np fd f =>
    .done () (s.setProc np fun q => { q with ofile := update q.ofile fd (some f) })
  | .childCwd np ip => .done () (s.setProc np fun q => { q with cwd := some ip })
  | .childRun np => .done () (s.setProc np fun q => { q with stage := .alive })
  | .zombie => .done () (s.setProc p fun q => { q with stage := .zombie })
  | .reap => .done () (s.reap e.q)

end Xv6Freezer.Files
