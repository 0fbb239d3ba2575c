import Xv6Freezer.Files.Basic

/-! # The code of `fs.c`, `file.c` and `sysfile.c`

The functions on inodes, directories, paths, files and processes as programs over the operations of
`Files/Basic`. A path that `argstr` cannot fetch is `none`.
-/

namespace Xv6Freezer.Files

open Lib Function

abbrev Code (P α : Type) := Prog (Op P) Res α

variable {P : Type}

def panic {α : Type} (msg : String) : Code P α := .op (.panic msg) Empty.elim

abbrev atomic (o : Op P) : Code P (Res o) := Prog.exec o

/-! ## Inodes -/

def ilock (ip : Nat) : Code P Unit := do
  atomic (.ilockCheck ip)
  atomic (.acquiresleep ip)
  let i ← atomic (.getInode ip)
  if i.valid = true then pure ()
  else do
    atomic (.loadInode ip)
    let i ← atomic (.getInode ip)
    if i.d.type = .none then panic "ilock: no type" else pure ()

/-- One round of the first loop of `itrunc`, and its last lines. -/
def itruncAddr (ip i : Nat) : Code P Unit := do
  let ino ← atomic (.getInode ip)
  if ino.d.addrs i ≠ 0 then do
    atomic .bfree
    atomic (.setInode ip fun d => { d with addrs := update d.addrs i 0 })
  else pure ()

/-- One round of the loop of `itrunc` over the indirect block. -/
def itruncSlot (ip j : Nat) : Code P Unit := do
  let b ← atomic (.getInd ip j)
  if b ≠ (0 : Nat) then atomic .bfree else pure ()

/-- The second half of `itrunc`: the indirect block, if there is one. -/
def itruncRest (ip : Nat) : Code P Unit := do
  let ino ← atomic (.getInode ip)
  if ino.d.addrs NDIRECT ≠ 0 then do
    Prog.times NINDIRECT (itruncSlot ip)
    itruncAddr ip NDIRECT
  else pure ()

def itrunc (ip : Nat) : Code P Unit := do
  Prog.times NDIRECT (itruncAddr ip)
  itruncRest ip
  atomic (.setInode ip fun d => { d with size := 0 })
  atomic (.iupdate ip)

def iput (ip : Nat) : Code P Unit := do
  let last ← atomic (.iputTest ip)
  if last = true then do
    itrunc ip
    atomic (.setInode ip fun d => { d with type := .none })
    atomic (.iupdate ip)
    atomic (.clearValid ip)
    atomic (.releasesleep ip)
    atomic (.iputDrop ip)
  else pure ()

def iunlockput (ip : Nat) : Code P Unit := do
  atomic (.iunlock ip)
  iput ip

def iallocLoop (dev : Nat) (type : FileType) : Nat → Nat → Code P (Option Nat)
  | 0, _ => pure none
  | n + 1, inum => do
    let free ← atomic (.iallocTry inum type)
    if free = true then do
      let ip ← atomic (.iget dev inum)
      pure (some ip)
    else iallocLoop dev type n (inum + 1)

def ialloc (dev : Nat) (type : FileType) : Code P (Option Nat) := do
  let n ← atomic .getNinodes
  iallocLoop dev type (n - 1) 1

/-! ## Directories -/

/-- How many rounds `for(off = 0; off < size; off += sizeof(de))` makes. -/
def slots (size : Nat) : Nat := (size + (DIRENT - 1)) / DIRENT

def dirlookupLoop (dp dev : Nat) (name : Name) : Nat → Nat → Code P (Option (Nat × Nat))
  | 0, _ => pure none
  | n + 1, off => do
    let de ← atomic (.readDirent dp off)
    match de with
    | none => panic "dirlookup read"
    | some de =>
      if de.inum ≠ 0 ∧ de.name = name then do
        let ip ← atomic (.iget dev de.inum)
        pure (some (ip, off))
      else dirlookupLoop dp dev name n (off + DIRENT)

/-- `dirlookup`: the inode and the offset of its entry. -/
def dirlookup (dp : Nat) (name : Name) : Code P (Option (Nat × Nat)) := do
  let d ← atomic (.getInode dp)
  if d.d.type ≠ .dir then panic "dirlookup not DIR"
  else dirlookupLoop dp d.dev name (slots d.d.size) 0

/-- The second loop of `dirlink`: an empty slot, or the end of the directory. -/
def dirlinkLoop (dp : Nat) : Nat → Nat → Code P Nat
  | 0, off => pure off
  | n + 1, off => do
    let de ← atomic (.readDirent dp off)
    match de with
    | none => panic "dirlink read"
    | some de => if de.inum = 0 then pure off else dirlinkLoop dp n (off + DIRENT)

def writeDirent (dp off inum : Nat) (name : Name) : Code P Int := do
  let r ← atomic (.writeDirent dp off inum name)
  if r = (-1 : Int) then pure (-1)
  else do
    atomic (.iupdate dp)
    pure r

def dirlink (dp : Nat) (name : Name) (inum : Nat) : Code P Int := do
  let found ← dirlookup dp name
  match found with
  | some (ip, _) => do
    iput ip
    pure (-1)
  | none => do
    let d ← atomic (.getInode dp)
    let off ← dirlinkLoop dp (slots d.d.size) 0
    let r ← writeDirent dp off inum name
    if r ≠ DIRENT then pure (-1) else pure 0

def isdiremptyLoop (dp : Nat) : Nat → Nat → Code P Bool
  | 0, _ => pure true
  | n + 1, off => do
    let de ← atomic (.readDirent dp off)
    match de with
    | none => panic "isdirempty: readi"
    | some de => if de.inum ≠ 0 then pure false else isdiremptyLoop dp n (off + DIRENT)

def isdirempty (dp : Nat) : Code P Bool := do
  let d ← atomic (.getInode dp)
  isdiremptyLoop dp (slots (d.d.size - 2 * DIRENT)) (2 * DIRENT)

/-! ## Paths -/

abbrev Path := List UInt8

def slash : UInt8 := 47

def dot : Name := [46]

def dotdot : Name := [46, 46]

/-- `skipelem`: the next element, cut to `DIRSIZ` bytes, and the rest of the path. -/
def skipelem (path : Path) : Option (Name × Path) :=
  match path.dropWhile (· == slash) with
  | [] => none
  | c :: s => some (((c :: s).takeWhile (· != slash)).take DIRSIZ,
      ((c :: s).dropWhile (· != slash)).dropWhile (· == slash))

def namexEnd (nameiparent : Bool) (ip : Nat) (name : Name) : Code P (Option (Nat × Name)) :=
  if nameiparent = true then do
    iput ip
    pure none
  else pure (some (ip, name))

/-- The loop of `namex`. An element takes at least one byte, so that the length bounds the rounds. -/
def namexLoop (nameiparent : Bool) : Nat → Nat → Path → Name → Code P (Option (Nat × Name))
  | 0, ip, _, name => namexEnd nameiparent ip name
  | n + 1, ip, path, name =>
    match skipelem path with
    | none => namexEnd nameiparent ip name
    | some (name, path) => do
      ilock ip
      let i ← atomic (.getInode ip)
      if i.d.type ≠ .dir then do
        iunlockput ip
        pure none
      else if nameiparent = true ∧ path = [] then do
        atomic (.iunlock ip)
        pure (some (ip, name))
      else do
        let found ← dirlookup ip name
        match found with
        | none => do
          iunlockput ip
          pure none
        | some (next, _) => do
          iunlockput ip
          namexLoop nameiparent n next path name

def idupCwd : Code P Nat := do
  let p ← atomic .myproc
  match p.cwd with
  | some ip => do
    atomic (.idup ip)
    pure ip
  | none => panic "kerneltrap"

/-- Where `namex` starts: at the root, or at the current directory. -/
def namexStart (path : Path) : Code P Nat :=
  if path.head? = some slash then atomic (.iget ROOTDEV ROOTINO) else idupCwd

def namex (path : Path) (nameiparent : Bool) : Code P (Option (Nat × Name)) := do
  let ip ← namexStart path
  namexLoop nameiparent path.length ip path []

def namei (path : Path) : Code P (Option Nat) := do
  let r ← namex path false
  pure (r.map Prod.fst)

def nameiparent (path : Path) : Code P (Option (Nat × Name)) := namex path true

/-! ## Files -/

def fileclose (f : Nat) : Code P Unit := do
  let last ← atomic (.fileclose f)
  match last with
  | none => pure ()
  | some ff =>
    if ff.type = .pipe then atomic (.pipeclose ff.pipe ff.writable)
    else if ff.type = .inode ∨ ff.type = .device then do
      atomic .begin_op
      iput ff.ip
      atomic .end_op
    else pure ()

def filestat (f : Nat) : Code P Int := do
  let ff ← atomic (.getFile f)
  if ff.type = .inode ∨ ff.type = .device then do
    ilock ff.ip
    let _ ← atomic (.getInode ff.ip)
    atomic (.iunlock ff.ip)
    let ok ← atomic .ask
    if ok = (0 : Nat) then pure (-1) else pure 0
  else pure (-1)

def advance (f off : Nat) (r : Int) : Code P Unit :=
  if 0 < r then atomic (.setOff f (off + r.toNat)) else pure ()

/-- `fileread`. What pipes and devices deliver is left to the environment. -/
def fileread (f n : Nat) : Code P Int := do
  let ff ← atomic (.getFile f)
  if ff.readable = false then pure (-1)
  else if ff.type = .pipe ∨ ff.type = .device then do
    let r ← atomic .ask
    pure (r : Nat)
  else if ff.type = .inode then do
    ilock ff.ip
    let ff' ← atomic (.getFile f)
    let r ← atomic (.readi ff.ip ff'.off n)
    advance f ff'.off r
    atomic (.iunlock ff.ip)
    pure r
  else panic "fileread"

/-- The largest piece that `filewrite` writes in one transaction. -/
def maxWrite : Nat := (10 - 1 - 1 - 2) / 2 * BSIZE

/-- `writei` of a piece of a user buffer. -/
def writei (ip off n : Nat) : Code P Int := do
  let r ← atomic (.writei ip off n)
  if r = (-1 : Int) then pure (-1)
  else do
    atomic (.iupdate ip)
    pure r

def filewriteLoop (f ip n : Nat) : Nat → Nat → Code P Int
  | 0, i => pure (if i = n then n else -1)
  | k + 1, i =>
    if n ≤ i then pure (if i = n then n else -1)
    else do
      let n1 := min (n - i) maxWrite
      atomic .begin_op
      ilock ip
      let ff ← atomic (.getFile f)
      let r ← writei ip ff.off n1
      advance f ff.off r
      atomic (.iunlock ip)
      atomic .end_op
      if r ≠ n1 then pure (if i = n then n else -1)
      else filewriteLoop f ip n k (i + r.toNat)

def filewrite (f n : Nat) : Code P Int := do
  let ff ← atomic (.getFile f)
  if ff.writable = false then pure (-1)
  else if ff.type = .pipe ∨ ff.type = .device then do
    let r ← atomic .ask
    pure (r : Nat)
  else if ff.type = .inode then filewriteLoop f ff.ip n (n + 1) 0
  else panic "filewrite"

/-! ## System calls -/

def argfd (fd : Int) : Code P (Option (Nat × Nat)) := do
  let p ← atomic .myproc
  if fd < 0 ∨ NOFILE ≤ fd then pure none
  else
    match p.ofile fd.toNat with
    | none => pure none
    | some f => pure (some (fd.toNat, f))

def fdalloc (f : Nat) : Code P (Option Nat) := do
  let p ← atomic .myproc
  match (List.range NOFILE).find? fun fd => (p.ofile fd).isNone with
  | some fd => do
    atomic (.setOfile fd (some f))
    pure (some fd)
  | none => pure none

def sysDup (fd : Int) : Code P Int := do
  let arg ← argfd fd
  match arg with
  | none => pure (-1)
  | some (_, f) => do
    let fd ← fdalloc f
    match fd with
    | none => pure (-1)
    | some fd => do
      atomic (.filedup f)
      pure fd

/-- A call on the file of a descriptor. -/
def sysFile (fd : Int) (op : Nat → Code P Int) : Code P Int := do
  let arg ← argfd fd
  match arg with
  | none => pure (-1)
  | some (_, f) => op f

def sysRead (fd : Int) (n : Nat) : Code P Int := sysFile fd fun f => fileread f n

def sysWrite (fd : Int) (n : Nat) : Code P Int := sysFile fd fun f => filewrite f n

def sysFstat (fd : Int) : Code P Int := sysFile fd filestat

def sysClose (fd : Int) : Code P Int := do
  let arg ← argfd fd
  match arg with
  | none => pure (-1)
  | some (fd, f) => do
    atomic (.setOfile fd none)
    fileclose f
    pure 0

def linkBad (ip : Nat) : Code P Int := do
  ilock ip
  atomic (.setInode ip fun d => { d with nlink := int16 (d.nlink - 1) })
  atomic (.iupdate ip)
  iunlockput ip
  atomic .end_op
  pure (-1)

def linkEntry (dp ip : Nat) (name : Name) : Code P Int := do
  let d ← atomic (.getInode dp)
  let i ← atomic (.getInode ip)
  if d.dev ≠ i.dev then pure (-1) else dirlink dp name i.inum

def linkNew (ip : Nat) (new : Path) : Code P Int := do
  let parent ← nameiparent new
  match parent with
  | none => linkBad ip
  | some (dp, name) => do
    ilock dp
    let r ← linkEntry dp ip name
    if r < 0 then do
      iunlockput dp
      linkBad ip
    else do
      iunlockput dp
      iput ip
      atomic .end_op
      pure 0

def sysLink (old new : Option Path) : Code P Int :=
  match old, new with
  | some old, some new => do
    atomic .begin_op
    let found ← namei old
    match found with
    | none => do
      atomic .end_op
      pure (-1)
    | some ip => do
      ilock ip
      let i ← atomic (.getInode ip)
      if i.d.type = .dir then do
        iunlockput ip
        atomic .end_op
        pure (-1)
      else do
        atomic (.setInode ip fun d => { d with nlink := int16 (d.nlink + 1) })
        atomic (.iupdate ip)
        atomic (.iunlock ip)
        linkNew ip new
  | _, _ => pure (-1)

def unlinkBad (dp : Nat) : Code P Int := do
  iunlockput dp
  atomic .end_op
  pure (-1)

/-- `sys_unlink`: `dp->nlink--` for the `..` of a directory. -/
def unlinkParent (dp : Nat) (isdir : Bool) : Code P Unit :=
  if isdir = true then do
    atomic (.setInode dp fun d => { d with nlink := int16 (d.nlink - 1) })
    atomic (.iupdate dp)
  else pure ()

def unlinkEntry (dp ip off : Nat) (isdir : Bool) : Code P Int := do
  let r ← writeDirent dp off 0 []
  if r ≠ DIRENT then panic "unlink: writei"
  else do
    unlinkParent dp isdir
    iunlockput dp
    atomic (.setInode ip fun d => { d with nlink := int16 (d.nlink - 1) })
    atomic (.iupdate ip)
    iunlockput ip
    atomic .end_op
    pure 0

/-- `sys_unlink`: may the inode be removed? -/
def unlinkEmpty (ip : Nat) (type : FileType) : Code P Bool :=
  if type = .dir then isdirempty ip else pure true

def sysUnlink (path : Option Path) : Code P Int :=
  match path with
  | none => pure (-1)
  | some path => do
    atomic .begin_op
    let parent ← nameiparent path
    match parent with
    | none => do
      atomic .end_op
      pure (-1)
    | some (dp, name) => do
      ilock dp
      if name = dot ∨ name = dotdot then unlinkBad dp
      else do
        let found ← dirlookup dp name
        match found with
        | none => unlinkBad dp
        | some (ip, off) => do
          ilock ip
          let i ← atomic (.getInode ip)
          if i.d.nlink < 1 then panic "unlink: nlink < 1"
          else do
            let empty ← unlinkEmpty ip i.d.type
            if empty = false then do
              iunlockput ip
              unlinkBad dp
            else unlinkEntry dp ip off (i.d.type = .dir)

def createFail (dp ip : Nat) : Code P (Option Nat) := do
  atomic (.setInode ip fun d => { d with nlink := 0 })
  atomic (.iupdate ip)
  iunlockput ip
  iunlockput dp
  pure none

/-- `create`: the entries `.` and `..` of a new directory. -/
def createDots (ip inum parent : Nat) (type : FileType) : Code P Int :=
  if type = .dir then do
    let r ← dirlink ip dot inum
    if r < 0 then pure r else dirlink ip dotdot parent
  else pure 0

/-- `create`: `dp->nlink++` for the `..` of a new directory. -/
def createParent (dp : Nat) (type : FileType) : Code P Unit :=
  if type = .dir then do
    atomic (.setInode dp fun d => { d with nlink := int16 (d.nlink + 1) })
    atomic (.iupdate dp)
  else pure ()

def createNew (dp : Nat) (name : Name) (ip : Nat) (type : FileType) (major minor : Int) :
    Code P (Option Nat) := do
  ilock ip
  atomic (.setInode ip fun d => { d with major := major, minor := minor, nlink := 1 })
  atomic (.iupdate ip)
  let i ← atomic (.getInode ip)
  let d ← atomic (.getInode dp)
  let dots ← createDots ip i.inum d.inum type
  if dots < 0 then createFail dp ip
  else do
    let r ← dirlink dp name i.inum
    if r < 0 then createFail dp ip
    else do
      createParent dp type
      iunlockput dp
      pure (some ip)

def create (path : Path) (type : FileType) (major minor : Int) : Code P (Option Nat) := do
  let parent ← nameiparent path
  match parent with
  | none => pure none
  | some (dp, name) => do
    ilock dp
    let found ← dirlookup dp name
    match found with
    | some (ip, _) => do
      iunlockput dp
      ilock ip
      let i ← atomic (.getInode ip)
      if type = .file ∧ (i.d.type = .file ∨ i.d.type = .device) then pure (some ip)
      else do
        iunlockput ip
        pure none
    | none => do
      let d ← atomic (.getInode dp)
      let new ← ialloc d.dev type
      match new with
      | none => do
        iunlockput dp
        pure none
      | some ip => createNew dp name ip type major minor

def O_WRONLY : Nat := 0x001

def O_RDWR : Nat := 0x002

def O_CREATE : Nat := 0x200

def O_TRUNC : Nat := 0x400

def openBad (ip : Nat) : Code P Int := do
  iunlockput ip
  atomic .end_op
  pure (-1)

def openInode (path : Path) (omode : Nat) : Code P (Option Nat) :=
  if omode &&& O_CREATE ≠ 0 then create path .file 0 0
  else do
    let found ← namei path
    match found with
    | none => pure none
    | some ip => do
      ilock ip
      let i ← atomic (.getInode ip)
      if i.d.type = .dir ∧ omode ≠ 0 then do
        iunlockput ip
        pure none
      else pure (some ip)

def openTrunc (ip omode : Nat) (type : FileType) : Code P Unit :=
  if omode &&& O_TRUNC ≠ 0 ∧ type = .file then itrunc ip else pure ()

def openFile (ip f fd omode : Nat) : Code P Int := do
  let i ← atomic (.getInode ip)
  atomic (.openInode f ip (if i.d.type = .device then .device else .inode)
    (omode &&& O_WRONLY = 0) (omode &&& O_WRONLY ≠ 0 ∨ omode &&& O_RDWR ≠ 0) i.d.major)
  openTrunc ip omode i.d.type
  atomic (.iunlock ip)
  atomic .end_op
  pure fd

def sysOpen (path : Option Path) (omode : Nat) : Code P Int :=
  match path with
  | none => pure (-1)
  | some path => do
    atomic .begin_op
    let found ← openInode path omode
    match found with
    | none => do
      atomic .end_op
      pure (-1)
    | some ip => do
      let i ← atomic (.getInode ip)
      if i.d.type = .device ∧ (i.d.major < 0 ∨ NDEV ≤ i.d.major) then openBad ip
      else do
        let f ← atomic .filealloc
        match f with
        | none => openBad ip
        | some f => do
          let fd ← fdalloc f
          match fd with
          | none => do
            fileclose f
            openBad ip
          | some fd => openFile ip f fd omode

/-- `create` of a path that `argstr` may not have fetched. -/
def createArg (path : Option Path) (type : FileType) (major minor : Int) : Code P (Option Nat) :=
  match path with
  | none => pure none
  | some path => create path type major minor

def mkNode (path : Option Path) (type : FileType) (major minor : Int) : Code P Int := do
  atomic .begin_op
  let new ← createArg path type (int16 major) (int16 minor)
  match new with
  | none => do
    atomic .end_op
    pure (-1)
  | some ip => do
    iunlockput ip
    atomic .end_op
    pure 0

def sysMkdir (path : Option Path) : Code P Int := mkNode path .dir 0 0

def sysMknod (path : Option Path) (major minor : Int) : Code P Int :=
  mkNode path .device major minor

def iputCwd : Code P Unit := do
  let p ← atomic .myproc
  match p.cwd with
  | some ip => iput ip
  | none => panic "kerneltrap"

def nameiArg (path : Option Path) : Code P (Option Nat) :=
  match path with
  | none => pure none
  | some path => namei path

def sysChdir (path : Option Path) : Code P Int := do
  atomic .begin_op
  let found ← nameiArg path
  match found with
  | none => do
    atomic .end_op
    pure (-1)
  | some ip => do
    ilock ip
    let i ← atomic (.getInode ip)
    if i.d.type ≠ .dir then do
      iunlockput ip
      atomic .end_op
      pure (-1)
    else do
      atomic (.iunlock ip)
      iputCwd
      atomic .end_op
      atomic (.setCwd (some ip))
      pure 0

/-- `n` calls of `readi` in `exec`; the environment says whether the header is good. -/
def execLoad (ip : Nat) : Nat → Code P Bool
  | 0 => pure true
  | n + 1 => do
    let off ← atomic .ask
    let len ← atomic .ask
    let r ← atomic (.readi ip off len)
    let ok ← atomic .ask
    if (r : Int) ≠ (len : Nat) ∨ ok = (0 : Nat) then pure false else execLoad ip n

/-- `exec`, as far as it has to do with inodes: any number of reads with the inode locked. -/
def exec' (path : Path) : Code P Int := do
  atomic .begin_op
  let found ← namei path
  match found with
  | none => do
    atomic .end_op
    pure (-1)
  | some ip => do
    ilock ip
    let n ← atomic .ask
    let _ ← execLoad ip (n + 1)
    iunlockput ip
    atomic .end_op
    let r ← atomic .ask
    if r = (0 : Nat) then pure (-1) else pure ((r : Nat) - 1)

def pipealloc : Code P (Option (Nat × Nat)) := do
  let f0 ← atomic .filealloc
  match f0 with
  | none => pure none
  | some f0 => do
    let f1 ← atomic .filealloc
    match f1 with
    | none => do
      fileclose f0
      pure none
    | some f1 => do
      let pi ← atomic .newPipe
      match pi with
      | none => do
        fileclose f0
        fileclose f1
        pure none
      | some pi => do
        atomic (.openPipe f0 pi false)
        atomic (.openPipe f1 pi true)
        pure (some (f0, f1))

def pipeBad (rf wf : Nat) : Code P Int := do
  fileclose rf
  fileclose wf
  pure (-1)

def sysPipe : Code P Int := do
  let r ← pipealloc
  match r with
  | none => pure (-1)
  | some (rf, wf) => do
    let fd0 ← fdalloc rf
    match fd0 with
    | none => pipeBad rf wf
    | some fd0 => do
      let fd1 ← fdalloc wf
      match fd1 with
      | none => do
        atomic (.setOfile fd0 none)
        pipeBad rf wf
      | some fd1 => do
        let ok ← atomic .ask
        if ok = (0 : Nat) then do
          atomic (.setOfile fd0 none)
          atomic (.setOfile fd1 none)
          pipeBad rf wf
        else pure 0

def forkOfile (np : P) (p : Proc) (fd : Nat) : Code P Unit :=
  match p.ofile fd with
  | none => pure ()
  | some f => do
    atomic (.filedup f)
    atomic (.childOfile np fd f)

def fork : Code P Int := do
  let np ← atomic .allocproc
  match np with
  | none => pure (-1)
  | some np => do
    let p ← atomic .myproc
    Prog.times NOFILE (forkOfile np p)
    match p.cwd with
    | none => panic "kerneltrap"
    | some ip => do
      atomic (.idup ip)
      atomic (.childCwd np ip)
      atomic (.childRun np)
      let pid ← atomic .ask
      pure (pid : Nat)

def exitClose (fd : Nat) : Code P Unit := do
  let p ← atomic .myproc
  match p.ofile fd with
  | none => pure ()
  | some f => do
    fileclose f
    atomic (.setOfile fd none)

/-- `exit` of a process other than the first one. -/
def exit : Code P Int := do
  Prog.times NOFILE exitClose
  atomic .begin_op
  iputCwd
  atomic .end_op
  atomic (.setCwd none)
  atomic .zombie
  pure 0

/-- `wait`, as far as it frees a slot. -/
def wait : Code P Int := do
  atomic .reap
  pure 0

inductive Call where
  | dup (fd : Int)
  | read (fd : Int) (n : Nat)
  | write (fd : Int) (n : Nat)
  | close (fd : Int)
  | fstat (fd : Int)
  | link (old new : Option Path)
  | unlink (path : Option Path)
  | open (path : Option Path) (omode : Nat)
  | mkdir (path : Option Path)
  | mknod (path : Option Path) (major minor : Int)
  | chdir (path : Option Path)
  | exec (path : Path)
  | pipe
  | fork
  | exit
  | wait

def Call.code : Call → Code P Int
  | .dup fd => sysDup fd
  | .read fd n => sysRead fd n
  | .write fd n => sysWrite fd n
  | .close fd => sysClose fd
  | .fstat fd => sysFstat fd
  | .link old new => sysLink old new
  | .unlink path => sysUnlink path
  | .open path omode => sysOpen path omode
  | .mkdir path => sysMkdir path
  | .mknod path major minor => sysMknod path major minor
  | .chdir path => sysChdir path
  | .exec path => exec' path
  | .pipe => sysPipe
  | .fork => Files.fork
  | .exit => Files.exit
  | .wait => Files.wait

/-- After boot: one process, whose current directory is the root; no open files. -/
structure Boot (initproc : P) (s : State P) : Prop where
  root : s.inode 0 = { dev := ROOTDEV, inum := ROOTINO, ref := 1, lock := none, valid := false
                       d := (s.inode 0).d }
  entries : ∀ e, e ≠ 0 → (s.inode e).ref = 0 ∧ (s.inode e).lock = none ∧ (s.inode e).valid = false
  files : ∀ f, (s.file f).ref = 0 ∧ (s.file f).type = .none
  pipes : ∀ pi, (s.pipe pi).allocs = (s.pipe pi).frees
  unread : ∀ i, s.unread i = none
  first : s.proc initproc = { stage := .alive, ofile := fun _ => none, cwd := some 0 }
  procs : ∀ p, p ≠ initproc → s.proc p = { stage := .unused, ofile := fun _ => none, cwd := none }

variable [DecidableEq P]

/-- The system calls on a disk that satisfies `image`. The first process does not exit. -/
def machine (initproc : P) (image : State P → Prop) : Machine P (Op P) (Env P) (State P) Call Res where
  exec := exec
  code p c s :=
    if (s.proc p).stage = .alive then
      match c with
      | .exit => some (if p = initproc then panic "init exiting" else exit)
      | c => some c.code
    else none
  init s := Boot initproc s ∧ image s

end Xv6Freezer.Files
