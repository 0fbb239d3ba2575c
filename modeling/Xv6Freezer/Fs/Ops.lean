import Xv6Freezer.Kernel.Code
import Xv6Freezer.Log.Basic

/-! # File-system operations as kernel code

`kernel/log.c`, `kernel/sleeplock.c` and `kernel/virtio_disk.c` as code that runs on the kernel of `proc.c`. A
system call is any sequence of transactions, sleep-locks taken and given back, disk accesses and calls of
`log_write`.
-/

namespace Xv6Freezer

open Function

/-! ## Data -/

/-- `struct sleeplock`. The slot of the owner is a history variable. -/
structure SleepLock where
  locked : Bool
  pid : Int
  owner : Option Slot

/-- The shared data. Sleep-locks are numbered: `2 * b` is that of buffer `b`, `2 * i + 1` that of
inode `i`. -/
structure Fs where
  log : Log
  sleeplocks : Nat → SleepLock
  /-- `b->disk`: the device owns buffer `b`. -/
  disk : Nat → Bool
  /-- History: the calls of `begin_op` that a process has not closed by `end_op`. -/
  ops : Slot → Int

inductive FsLock where
  | log
  /-- The spinlock `lk->lk` inside a sleep-lock. -/
  | sleeplock (l : Nat)
  | vdisk
  deriving DecidableEq

def bufLock (b : Nat) : Nat := 2 * b

def chanLog : Nat := 0

def chanFree : Nat := 1

def chanSleepLock (l : Nat) : Nat := 2 * l + 2

def chanBuf (b : Nat) : Nat := 2 * b + 3

/-! ## Program points -/

inductive FsStep where
  | lock (l : Nat)
  /-- The test of `holdingsleep` before `panic(msg)`. -/
  | check (l : Nat) (msg : String)
  | unlock (l : Nat)
  /-- `virtio_disk_rw(b, 0)`, if the buffer is not valid. -/
  | read (b : Nat)
  /-- `virtio_disk_rw(b, 1)`. -/
  | write (b : Nat)
  | clear

def bread (b : Nat) : List FsStep := [.lock (bufLock b), .read b]

def bwrite (b : Nat) : List FsStep := [.check (bufLock b) "bwrite", .write b]

def brelse (b : Nat) : List FsStep := [.check (bufLock b) "brelse", .unlock (bufLock b)]

def writeLog (log : Log) : List FsStep :=
  log.lh.zipIdx.flatMap fun (b, tail) =>
    bread (log.start + tail + 1) ++ bread b ++ bwrite (log.start + tail + 1) ++ brelse b ++
      brelse (log.start + tail + 1)

def writeHeadSteps (log : Log) : List FsStep := bread log.start ++ bwrite log.start ++ brelse log.start

def installTransSteps (log : Log) : List FsStep :=
  log.lh.zipIdx.flatMap fun (b, tail) =>
    bread (log.start + tail + 1) ++ bread b ++ bwrite b ++ brelse (log.start + tail + 1) ++ brelse b

def commitSteps (log : Log) : List FsStep :=
  if log.lh.length > 0 then
    writeLog log ++ writeHeadSteps log ++ installTransSteps log ++ [.clear] ++ writeHeadSteps log
  else []

inductive FsCont where
  /-- A system call that holds these sleep-locks and is or is not in a transaction. -/
  | op (held : List Nat) (inOp : Bool)
  /-- The calls that are left to do. -/
  | run (steps : List FsStep) (k : FsCont)
  /-- `end_op`, after `commit`. -/
  | finish (k : FsCont)

inductive LogPc where
  | acq | body | rel

inductive EndPc where
  | acq
  /-- `log.outstanding -= 1` and the tests. -/
  | body
  | wake
  | rel (doCommit : Bool)
  /-- After `commit`: `log.committing = 0`. -/
  | done
  | wakeDone
  | relDone

inductive AcquirePc where
  | acq | test | rel

inductive HoldingPc where
  | acq | read
  | rel (r : Bool)

inductive ReleasePc where
  | acq | clear | wake | rel

inductive DiskPc where
  | acq
  /-- `alloc3_desc`, or a wait for descriptors. -/
  | alloc
  /-- `b->disk = 1`. -/
  | issue
  /-- `while(b->disk == 1)`. -/
  | wait
  /-- `free_chain`. -/
  | free
  | rel

inductive IntrPc where
  | acq
  /-- The loop over the used ring. -/
  | loop
  | wake (b : Nat)
  | done

inductive FsFrame where
  | cont (k : FsCont)
  | beginOp (pc : LogPc) (k : FsCont)
  | logWrite (b : Nat) (pc : LogPc) (k : FsCont)
  | endOp (pc : EndPc) (k : FsCont)
  | acquiresleep (l : Nat) (pc : AcquirePc) (k : FsCont)
  | holdingsleep (l : Nat) (msg : String) (pc : HoldingPc) (k : FsCont)
  | releasesleep (l : Nat) (pc : ReleasePc) (k : FsCont)
  | virtioDiskRw (b : Nat) (pc : DiskPc) (k : FsCont)
  | virtioDiskIntr (pc : IntrPc)
  /-- `panic(msg)`, with the spinlocks held there. -/
  | panic (msg : String) (held : List FsLock)

@[simp] def FsFrame.held : FsFrame → List FsLock
  | .cont _ => []
  | .beginOp .acq _ | .logWrite _ .acq _ | .endOp .acq _ => []
  | .beginOp _ _ | .logWrite _ _ _ | .endOp _ _ => [.log]
  | .acquiresleep _ .acq _ | .holdingsleep _ _ .acq _ | .releasesleep _ .acq _ => []
  | .acquiresleep l _ _ | .holdingsleep l _ _ _ | .releasesleep l _ _ => [.sleeplock l]
  | .virtioDiskRw _ .acq _ => []
  | .virtioDiskRw _ _ _ => [.vdisk]
  | .virtioDiskIntr .acq | .virtioDiskIntr .done => []
  | .virtioDiskIntr _ => [.vdisk]
  | .panic _ held => held

/-! ## Code -/

section Code

variable (self : Slot) (pid : Int) (d : Fs) (x : Nat)

def Fs.goto (k : FsFrame) : Stmt FsFrame Fs FsLock := .update d k

def beginOpCode (k : FsCont) : LogPc → Stmt FsFrame Fs FsLock
  | .acq => .acquire .log (.beginOp .body k)
  | .body =>
    if d.log.mustWait then .sleep chanLog .log (.beginOp .body k)
    else .update { d with log := d.log.beginOp, ops := update d.ops self (d.ops self + 1) }
      (.beginOp .rel k)
  | .rel => .release .log (.cont k)

def logWriteCode (b : Nat) (k : FsCont) : LogPc → Stmt FsFrame Fs FsLock
  | .acq => .acquire .log (.logWrite b .body k)
  | .body =>
    match d.log.logWrite b with
    | .error msg => d.goto (.panic msg [.log])
    | .ok (l, _) => .update { d with log := l } (.logWrite b .rel k)
  | .rel => .release .log (.cont k)

def endOpCode (k : FsCont) : EndPc → Stmt FsFrame Fs FsLock
  | .acq => .acquire .log (.endOp .body k)
  | .body =>
    match d.log.endOp with
    | .error msg => d.goto (.panic msg [.log])
    | .ok (l, doCommit) =>
      .update { d with log := l, ops := update d.ops self (d.ops self - 1) }
        (.endOp (if doCommit then .rel true else .wake) k)
  | .wake => .wakeup chanLog (.endOp (.rel false) k)
  | .rel true => .release .log (.cont (.run (commitSteps d.log) (.finish k)))
  | .rel false => .release .log (.cont k)
  | .done => .update { d with log := d.log.commitDone } (.endOp .wakeDone k)
  | .wakeDone => .wakeup chanLog (.endOp .relDone k)
  | .relDone => .release .log (.cont k)

def acquiresleepCode (l : Nat) (k : FsCont) : AcquirePc → Stmt FsFrame Fs FsLock
  | .acq => .acquire (.sleeplock l) (.acquiresleep l .test k)
  | .test =>
    if (d.sleeplocks l).locked then .sleep (chanSleepLock l) (.sleeplock l) (.acquiresleep l .test k)
    else
      .update { d with sleeplocks := update d.sleeplocks l
                         { locked := true, pid := pid, owner := some self } }
        (.acquiresleep l .rel k)
  | .rel => .release (.sleeplock l) (.cont k)

def holdingsleepCode (l : Nat) (msg : String) (k : FsCont) : HoldingPc → Stmt FsFrame Fs FsLock
  | .acq => .acquire (.sleeplock l) (.holdingsleep l msg .read k)
  | .read =>
    d.goto (.holdingsleep l msg
      (.rel ((d.sleeplocks l).locked && decide ((d.sleeplocks l).pid = pid))) k)
  | .rel true => .release (.sleeplock l) (.cont k)
  | .rel false => .release (.sleeplock l) (.panic msg [])

def releasesleepCode (l : Nat) (k : FsCont) : ReleasePc → Stmt FsFrame Fs FsLock
  | .acq => .acquire (.sleeplock l) (.releasesleep l .clear k)
  | .clear =>
    .update { d with sleeplocks := update d.sleeplocks l
                       { locked := false, pid := 0, owner := none } }
      (.releasesleep l .wake k)
  | .wake => .wakeup (chanSleepLock l) (.releasesleep l .rel k)
  | .rel => .release (.sleeplock l) (.cont k)

/-- `virtio_disk_rw`. With `x = 0` there are no free descriptors. -/
def virtioDiskRwCode (b : Nat) (k : FsCont) : DiskPc → Stmt FsFrame Fs FsLock
  | .acq => .acquire .vdisk (.virtioDiskRw b .alloc k)
  | .alloc =>
    if x = 0 then .sleep chanFree .vdisk (.virtioDiskRw b .alloc k)
    else d.goto (.virtioDiskRw b .issue k)
  | .issue => .update { d with disk := update d.disk b true } (.virtioDiskRw b .wait k)
  | .wait =>
    if d.disk b then .sleep (chanBuf b) .vdisk (.virtioDiskRw b .wait k)
    else d.goto (.virtioDiskRw b .free k)
  | .free => .wakeup chanFree (.virtioDiskRw b .rel k)
  | .rel => .release .vdisk (.cont k)

/-- `virtio_disk_intr`; `x = 0` is the end of the used ring, else the next entry is of buffer `x - 1`. -/
def virtioDiskIntrCode : IntrPc → Stmt FsFrame Fs FsLock
  | .acq => .acquire .vdisk (.virtioDiskIntr .loop)
  | .loop =>
    if x = 0 then .release .vdisk (.virtioDiskIntr .done)
    else .update { d with disk := update d.disk (x - 1) false } (.virtioDiskIntr (.wake (x - 1)))
  | .wake b => .wakeup (chanBuf b) (.virtioDiskIntr .loop)
  | .done => .ret

/-- The panic when a lock is given back that the caller does not hold. -/
def releaseMsg (l : Nat) : String := if l % 2 = 0 then "brelse" else "iunlock"

/-- The next thing a system call does: `x` decides. -/
def opCode (held : List Nat) (inOp : Bool) : Stmt FsFrame Fs FsLock :=
  let n := x / 7
  match x % 7 with
  | 0 => if held = [] ∧ inOp = false then .ret else d.goto (.cont (.op held inOp))
  | 1 =>
    if inOp then d.goto (.cont (.op held inOp)) else d.goto (.beginOp .acq (.op held true))
  | 2 =>
    if inOp then d.goto (.endOp .acq (.op held false)) else d.goto (.cont (.op held inOp))
  | 3 => d.goto (.acquiresleep n .acq (.op (n :: held) inOp))
  | 4 =>
    if n ∈ held then
      d.goto (.cont (.run [.check n (releaseMsg n), .unlock n] (.op (held.erase n) inOp)))
    else d.goto (.cont (.op held inOp))
  | 5 =>
    if bufLock n ∈ held then d.goto (.cont (.run [.read n] (.op held inOp)))
    else d.goto (.cont (.op held inOp))
  | _ =>
    if inOp = true ∧ bufLock n ∈ held then d.goto (.logWrite n .acq (.op held inOp))
    else d.goto (.cont (.op held inOp))

def contCode : FsCont → Stmt FsFrame Fs FsLock
  | .op held inOp => opCode d x held inOp
  | .run [] k => d.goto (.cont k)
  | .run (.lock l :: steps) k => d.goto (.acquiresleep l .acq (.run steps k))
  | .run (.check l msg :: steps) k => d.goto (.holdingsleep l msg .acq (.run steps k))
  | .run (.unlock l :: steps) k => d.goto (.releasesleep l .acq (.run steps k))
  | .run (.read b :: steps) k =>
    if x = 0 then d.goto (.cont (.run steps k)) else d.goto (.virtioDiskRw b .acq (.run steps k))
  | .run (.write b :: steps) k => d.goto (.virtioDiskRw b .acq (.run steps k))
  | .run (.clear :: steps) k => .update { d with log := d.log.clear } (.cont (.run steps k))
  | .finish k => .acquire .log (.endOp .done k)

end Code

/-- The statement at a program point. Only interrupts run without a process. -/
def fsCode (f : FsFrame) (self : Option Slot) (pid : Int) (d : Fs) (x : Nat) :
    Stmt FsFrame Fs FsLock :=
  match f, self with
  | .virtioDiskIntr pc, _ => virtioDiskIntrCode d x pc
  | .panic msg held, _ => d.goto (.panic msg held)
  | f, none => d.goto (.panic "kerneltrap" f.held)
  | .cont k, some _ => contCode d x k
  | .beginOp pc k, some p => beginOpCode p d k pc
  | .logWrite b pc k, some _ => logWriteCode d b k pc
  | .endOp pc k, some p => endOpCode p d k pc
  | .acquiresleep l pc k, some p => acquiresleepCode p pid d l k pc
  | .holdingsleep l msg pc k, some _ => holdingsleepCode pid d l msg k pc
  | .releasesleep l pc k, some _ => releasesleepCode d l k pc
  | .virtioDiskRw b pc k, some _ => virtioDiskRwCode d x b k pc

/-! ## The code respects its spinlocks -/

section Locked

variable (self : Slot) (pid : Int) (d : Fs) (x : Nat)

theorem goto_locked {f k : FsFrame} (h : k.held = f.held) : (d.goto k).Locked FsFrame.held f := h

theorem beginOpCode_locked (pc : LogPc) (k : FsCont) :
    (beginOpCode self d k pc).Locked FsFrame.held (.beginOp pc k) := by
  cases pc with
  | body => simp only [beginOpCode]; split <;> simp [Stmt.Locked, FsFrame.held]
  | _ => simp [beginOpCode, Stmt.Locked, FsFrame.held]

theorem logWriteCode_locked (b : Nat) (pc : LogPc) (k : FsCont) :
    (logWriteCode d b k pc).Locked FsFrame.held (.logWrite b pc k) := by
  cases pc with
  | body => simp only [logWriteCode]; split <;> simp [Fs.goto, Stmt.Locked, FsFrame.held]
  | _ => simp [logWriteCode, Stmt.Locked, FsFrame.held]

theorem endOpCode_locked (pc : EndPc) (k : FsCont) :
    (endOpCode self d k pc).Locked FsFrame.held (.endOp pc k) := by
  cases pc with
  | body =>
    simp only [endOpCode]
    split
    · simp [Fs.goto, Stmt.Locked, FsFrame.held]
    · rename_i l doCommit _
      cases doCommit <;> simp [Stmt.Locked, FsFrame.held]
  | rel doCommit => cases doCommit <;> simp [endOpCode, Stmt.Locked, FsFrame.held]
  | _ => simp [endOpCode, Stmt.Locked, FsFrame.held]

theorem acquiresleepCode_locked (l : Nat) (pc : AcquirePc) (k : FsCont) :
    (acquiresleepCode self pid d l k pc).Locked FsFrame.held (.acquiresleep l pc k) := by
  cases pc with
  | test => simp only [acquiresleepCode]; split <;> simp [Stmt.Locked, FsFrame.held]
  | _ => simp [acquiresleepCode, Stmt.Locked, FsFrame.held]

theorem holdingsleepCode_locked (l : Nat) (msg : String) (pc : HoldingPc) (k : FsCont) :
    (holdingsleepCode pid d l msg k pc).Locked FsFrame.held (.holdingsleep l msg pc k) := by
  cases pc with
  | rel r => cases r <;> simp [holdingsleepCode, Stmt.Locked, FsFrame.held]
  | _ => simp [holdingsleepCode, Fs.goto, Stmt.Locked, FsFrame.held]

theorem releasesleepCode_locked (l : Nat) (pc : ReleasePc) (k : FsCont) :
    (releasesleepCode d l k pc).Locked FsFrame.held (.releasesleep l pc k) := by
  cases pc <;> simp [releasesleepCode, Stmt.Locked, FsFrame.held]

theorem virtioDiskRwCode_locked (b : Nat) (pc : DiskPc) (k : FsCont) :
    (virtioDiskRwCode d x b k pc).Locked FsFrame.held (.virtioDiskRw b pc k) := by
  cases pc <;> simp only [virtioDiskRwCode] <;> (repeat' split) <;>
    simp [Fs.goto, Stmt.Locked, FsFrame.held]

theorem virtioDiskIntrCode_locked (pc : IntrPc) :
    (virtioDiskIntrCode d x pc).Locked FsFrame.held (.virtioDiskIntr pc) := by
  cases pc <;> simp only [virtioDiskIntrCode] <;> (repeat' split) <;>
    simp [Stmt.Locked, FsFrame.held]

theorem contCode_locked (k : FsCont) : (contCode d x k).Locked FsFrame.held (.cont k) := by
  cases k with
  | op held inOp =>
    simp only [contCode, opCode]
    (repeat' split) <;> simp [Fs.goto, Stmt.Locked, FsFrame.held]
  | run steps k =>
    cases steps with
    | nil => exact goto_locked d rfl
    | cons st steps =>
      cases st <;> simp only [contCode] <;> (repeat' split) <;>
        simp [Fs.goto, Stmt.Locked, FsFrame.held]
  | finish k => simp [contCode, Stmt.Locked, FsFrame.held]

end Locked

theorem fsCode_locked (f : FsFrame) (self : Option Slot) (pid : Int) (d : Fs) (x : Nat) :
    (fsCode f self pid d x).Locked FsFrame.held f := by
  cases f with
  | virtioDiskIntr pc => exact virtioDiskIntrCode_locked d x pc
  | panic msg held => exact goto_locked d rfl
  | cont k => cases self <;> [exact goto_locked d rfl; exact contCode_locked d x k]
  | beginOp pc k => cases self <;> [exact goto_locked d rfl; exact beginOpCode_locked _ d pc k]
  | logWrite b pc k => cases self <;> [exact goto_locked d rfl; exact logWriteCode_locked d b pc k]
  | endOp pc k => cases self <;> [exact goto_locked d rfl; exact endOpCode_locked _ d pc k]
  | acquiresleep l pc k =>
    cases self <;> [exact goto_locked d rfl; exact acquiresleepCode_locked _ pid d l pc k]
  | holdingsleep l msg pc k =>
    cases self <;> [exact goto_locked d rfl; exact holdingsleepCode_locked pid d l msg pc k]
  | releasesleep l pc k =>
    cases self <;> [exact goto_locked d rfl; exact releasesleepCode_locked d l pc k]
  | virtioDiskRw b pc k =>
    cases self <;> [exact goto_locked d rfl; exact virtioDiskRwCode_locked d x b pc k]

/-! ## The kernel with a file system -/

def FsFrame.start : FsFrame := .cont (.op [] false)

def FsFrame.isStart : FsFrame → Bool
  | .cont (.op [] false) => true
  | _ => false

def FsFrame.isIntr : FsFrame → Bool
  | .virtioDiskIntr .acq => true
  | _ => false

/-- The file system as kernel code. `fileclose`, `iput` and `fsinit` are operations as well. -/
def fsClient : Client where
  Frame := FsFrame
  Data := Fs
  Lk := FsLock
  code := fsCode
  held := FsFrame.held
  entry := FsFrame.isStart
  handler := FsFrame.isIntr
  fileclose _ := .start
  iput _ := .start
  fsinit := .start
  code_locked := fsCode_locked
  held_entry f h := by
    unfold FsFrame.isStart at h
    split at h
    · rfl
    · cases h
  held_handler f h := by
    unfold FsFrame.isIntr at h
    split at h
    · rfl
    · cases h
  held_fileclose _ := rfl
  held_iput _ := rfl
  held_fsinit := rfl

def Fs.boot (start size : Nat) : Fs :=
  { log := Log.init start size
    sleeplocks := fun _ => { locked := false, pid := 0, owner := none }
    disk := fun _ => false
    ops := fun _ => 0 }

/-- The kernel with a file system whose log area is at `start` and has size `size`. -/
def fsKernel (start size : Nat) : Lib.Lts (State fsClient) (CpuId × Act fsClient) :=
  kernel fsClient fun d => d = Fs.boot start size

end Xv6Freezer
