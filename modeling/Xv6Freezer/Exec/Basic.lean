import Xv6Freezer.Vm.Growproc
import Xv6Freezer.Vm.Image

/-! # `exec`: the code

`exec` of `kernel/exec.c` and `sys_exec` of `kernel/sysfile.c`. The file is the list of its bytes. Every `goto
bad` is a call of `bad` with the values that `pagetable`, `sz` and `ip` have at that place.
-/

namespace Xv6Freezer.Exec

open Lib Vm Fork Function

/-! ## Files -/

/-- `MAXFILE * BSIZE`. -/
def maxFileSize : Nat := 268 * 1024

/-- The content of a regular file. -/
structure File where
  bytes : List UInt8
  le : bytes.length ≤ maxFileSize

/-- `readi(ip, 0, dst, off, n)`: the bytes that are read. -/
def readi (f : File) (off n : Nat) : List UInt8 :=
  if off > f.bytes.length ∨ u32 (off + n) < off then []
  else (f.bytes.drop off).take n

structure Files where
  /-- The inode that `namei` finds. -/
  namei : List UInt8 → Option Nat
  content : Nat → File

/-! ## ELF -/

/-- The little-endian number in the bytes from `i` on. -/
def field (bs : List UInt8) (i n : Nat) : Nat := Bytes.loadLE (fun a => bs.getD a 0) i n

def ELF_MAGIC : Nat := 0x464C457F

def ELF_PROG_LOAD : Nat := 1

structure Elfhdr where
  magic : Nat
  entry : Nat
  phoff : Nat
  phnum : Nat

def elfhdrSize : Nat := 64

def Elfhdr.ofBytes (bs : List UInt8) : Elfhdr where
  magic := field bs 0 4
  entry := field bs 24 8
  phoff := field bs 32 8
  phnum := field bs 56 2

structure Proghdr where
  type : Nat
  flags : Nat
  off : Nat
  vaddr : Nat
  filesz : Nat
  memsz : Nat

def proghdrSize : Nat := 56

def Proghdr.ofBytes (bs : List UInt8) : Proghdr where
  type := field bs 0 4
  flags := field bs 4 4
  off := field bs 8 8
  vaddr := field bs 16 8
  filesz := field bs 32 8
  memsz := field bs 40 8

def flags2perm (flags : Nat) : Nat :=
  (if flags &&& 0x1 ≠ 0 then PTE_X else 0) ||| (if flags &&& 0x2 ≠ 0 then PTE_W else 0)

/-! ## Loading -/

section Load

variable (L : Layout) (f : File)

/-- The loop of `loadseg`. Every round but the last reads a page of the file. -/
def loadsegLoop (pagetable va offset sz : Nat) : Nat → Nat → M Int
  | 0, _ => Vm.panic "loadseg: too many rounds"
  | fuel + 1, i =>
    if i < sz then do
      let pa ← walkaddr pagetable (u64 (va + i))
      if pa = 0 then Vm.panic "loadseg: address should exist"
      else
        let n := if sz - i < PGSIZE then sz - i else PGSIZE
        let bs := readi f (u32 (offset + i)) n
        copyBytes pa bs
        if bs.length ≠ n then return -1
        else loadsegLoop pagetable va offset sz fuel (u32 (i + PGSIZE))
    else return 0

def loadseg (pagetable va offset sz : Nat) : M Int :=
  loadsegLoop f pagetable va offset sz (f.bytes.length / PGSIZE + 2) 0

/-- The loop over the program headers, with its rounds left, `off` and `sz`: success, and `sz`. -/
def loadLoop (pagetable : Nat) : Nat → Int → Nat → M (Bool × Nat)
  | 0, _, sz => return (true, sz)
  | n + 1, off, sz => do
    let bs := readi f (u32 (ofInt off)) proghdrSize
    let next := int32 (off + proghdrSize)
    let ph := Proghdr.ofBytes bs
    if bs.length ≠ proghdrSize then return (false, sz)
    else if ph.type ≠ ELF_PROG_LOAD then loadLoop pagetable n next sz
    else if ph.memsz < ph.filesz then return (false, sz)
    else if u64 (ph.vaddr + ph.memsz) < ph.vaddr then return (false, sz)
    else if ph.vaddr % PGSIZE ≠ 0 then return (false, sz)
    else
      let sz1 ← uvmalloc L pagetable sz (u64 (ph.vaddr + ph.memsz)) (flags2perm ph.flags)
      if sz1 = 0 then return (false, sz)
      else
        let r ← loadseg f pagetable ph.vaddr (u32 ph.off) (u32 ph.filesz)
        if r < 0 then return (false, sz1)
        else loadLoop pagetable n next sz1

end Load

/-! ## Arguments -/

def MAXARG : Nat := 32

def USERSTACK : Nat := 2

/-- The string in a page. -/
def kstr (m : Mem) (a : Nat) : List UInt8 :=
  ((List.range PGSIZE).map fun i => m.bytes (a + i)).takeWhile (· ≠ 0)

/-- The loop that pushes the argument strings: the rest of `argv`, `sp`, and `ustack` so far. -/
def pushArgs (pagetable stackbase : Nat) : List Nat → Nat → List Nat → M (Option (Nat × List Nat))
  | [], sp, ustack => return some (sp, ustack)
  | a :: argv, sp, ustack =>
    if ustack.length ≥ MAXARG then return none
    else do
      let m ← get
      let s := kstr m a
      let sp := sub64 sp (s.length + 1)
      let sp := sub64 sp (sp % 16)
      if sp < stackbase then return none
      else
        let r ← copyout pagetable sp (s ++ [0])
        if r < 0 then return none else pushArgs pagetable stackbase argv sp (ustack ++ [sp])

/-- The bytes of an array of `uint64`. -/
def wordBytes (ws : List Nat) : List UInt8 :=
  ws.flatMap fun w => (List.range 8).map fun i => UInt8.ofNat (w / 256 ^ i)

/-- The program name: what follows the last slash of the path. -/
def lastElement (path : List UInt8) : List UInt8 :=
  (path.reverse.takeWhile (· ≠ UInt8.ofNat '/'.toNat)).reverse

/-! ## State -/

structure ExecState extends Fork.State where
  begun : Nat
  ended : Nat
  locked : Nat → Bool

abbrev X := StateT ExecState (Except String)

def onMem {α : Type} (x : Vm.M α) : X α :=
  zoom (fun s => s.mem) (fun m s => { s with mem := m }) x

def setProc (p : Slot) (f : Fork.Proc → Fork.Proc) : X Unit :=
  modify fun s => { s with toState := s.toState.setProc p f }

/-- The word of `struct trapframe` for `a1`. -/
def regA1 : Nat := 15

def regEpc : Nat := 3

def regSp : Nat := 6

def begin_op : X Unit := modify fun s => { s with begun := s.begun + 1 }

def end_op : X Unit := modify fun s => { s with ended := s.ended + 1 }

/-- `ip = namei(path)`, which takes a reference, and `ilock(ip)`. -/
def ilock (ip : Nat) : X Unit := modify fun s => { s with
  inodeRef := update s.inodeRef ip (s.inodeRef ip + 1)
  locked := update s.locked ip true }

def iunlockput (ip : Nat) : X Unit := modify fun s => { s with
  inodeRef := update s.inodeRef ip (s.inodeRef ip - 1)
  locked := update s.locked ip false }

/-! ## `exec` -/

section Exec

variable (L : Layout) (fs : Files) (p : Slot)

/-- The local variables of `exec` where nothing can fail any more. -/
structure NewImage where
  entry : Nat
  pagetable : Nat
  sz : Nat
  sp : Nat
  argc : Nat

/-- The code at the label `bad`, up to the `return`. -/
def bad (pagetable sz : Nat) (ip : Option Nat) : X (Option NewImage) := do
  if pagetable ≠ 0 then onMem (procFreepagetable L pagetable sz) else pure ()
  match ip with
  | some ip => do
    iunlockput ip
    end_op
    return none
  | none => return none

/-- The part of `exec` that sets up the stack. -/
def execStack (argv : List Nat) (elf : Elfhdr) (pagetable sz : Nat) : X (Option NewImage) := do
  let sz := PGROUNDUP sz
  let sz1 ← onMem (uvmalloc L pagetable sz (u64 (sz + (USERSTACK + 1) * PGSIZE)) PTE_W)
  if sz1 = 0 then bad L pagetable sz none
  else
    let sz := sz1
    onMem (uvmclear pagetable (sub64 sz ((USERSTACK + 1) * PGSIZE)))
    let stackbase := sub64 sz (USERSTACK * PGSIZE)
    match ← onMem (pushArgs pagetable stackbase argv sz []) with
    | none => bad L pagetable sz none
    | some (sp, ustack) =>
      let argc := ustack.length
      let sp := sub64 sp ((argc + 1) * 8)
      let sp := sub64 sp (sp % 16)
      if sp < stackbase then bad L pagetable sz none
      else
        let r ← onMem (copyout pagetable sp (wordBytes (ustack ++ [0])))
        if r < 0 then bad L pagetable sz none
        else return some ⟨elf.entry, pagetable, sz, sp, argc⟩

/-- `exec` up to the point where it commits to the new image. -/
def execImage (path : List UInt8) (argv : List Nat) : X (Option NewImage) := do
  begin_op
  match fs.namei path with
  | none =>
    end_op
    return none
  | some ip =>
    ilock ip
    let bs := readi (fs.content ip) 0 elfhdrSize
    let elf := Elfhdr.ofBytes bs
    if bs.length ≠ elfhdrSize then bad L 0 0 (some ip)
    else if elf.magic ≠ ELF_MAGIC then bad L 0 0 (some ip)
    else
      let s ← get
      let pagetable ← onMem (procPagetable L (s.proc p).trapframe)
      if pagetable = 0 then bad L 0 0 (some ip)
      else
        match ← onMem (loadLoop L (fs.content ip) pagetable elf.phnum (int32 elf.phoff) 0) with
        | (false, sz) => bad L pagetable sz (some ip)
        | (true, sz) =>
          iunlockput ip
          end_op
          execStack L argv elf pagetable sz

/-- The end of `exec`, where the new image takes the place of the old one. -/
def commit (path : List UInt8) (new : NewImage) : X Int := do
  let s ← get
  onMem (store ((s.proc p).trapframe + 8 * regA1) new.sp)
  setProc p fun q => { q with
    name := safestrcpy (lastElement path) 16, pagetable := new.pagetable, sz := new.sz }
  onMem (store ((s.proc p).trapframe + 8 * regEpc) new.entry)
  onMem (store ((s.proc p).trapframe + 8 * regSp) new.sp)
  onMem (procFreepagetable L (s.proc p).pagetable (s.proc p).sz)
  return new.argc

/-- `exec(path, argv)` of process `p`; `argv` are the pages with the strings. -/
def exec (path : List UInt8) (argv : List Nat) : X Int := do
  match ← execImage L fs p path argv with
  | none => return -1
  | some new => commit L p path new

end Exec

end Xv6Freezer.Exec
