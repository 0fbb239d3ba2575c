import Xv6Freezer.Lib.Transition
import Xv6Freezer.Params

/-! # The process table, its locks and the kernel threads

The data of `kernel/proc.c`, `kernel/proc.h` and the freezer calls of `kernel/sysproc.c`. A kernel thread is a
stack of `Frame`s, one for each active C function. The code that is not `proc.c` is a parameter: a `Client`,
some program that takes its own spinlocks and calls `sleep`, `wakeup` and `killed`.
-/

namespace Xv6Freezer

open Function (update)

/-- An index into `proc[NPROC]`, standing for a `struct proc *`. -/
abbrev Slot := Nat

/-- An index into `cpus[]`. Any number of CPUs may take steps. -/
abbrev CpuId := Nat

inductive ProcState where
  | unused | used | sleeping | runnable | running | zombie | frozen
  deriving DecidableEq, Repr

/-- What a process can sleep on: a `struct proc` (in `wait`) or some other kernel address. -/
inductive Chan where
  | proc (p : Slot)
  | addr (a : Nat)
  deriving DecidableEq, Repr

/-- Two's complement wrap-around of a C `int`. -/
def int32 (x : Int) : Int := Int.bmod x (2 ^ 32)

/-! ## Kernel code outside `proc.c` -/

/-- One statement of kernel code outside `proc.c`, with the program point that follows it. -/
inductive Stmt (F D L : Type) where
  | acquire (lk : L) (k : F)
  | release (lk : L) (k : F)
  | sleep (chan : Nat) (lk : L) (k : F)
  | wakeup (chan : Nat) (k : F)
  /-- A branch on `killed(myproc())`. -/
  | killed (k : Bool → F)
  /-- Any other statement: the shared data become `d`. -/
  | update (d : D) (k : F)
  | ret

/-- The statement agrees with the spinlocks `held`: a lock is taken only when it is not held, released only
when it is, and `sleep` is called with exactly its condition lock held. -/
def Stmt.Locked {F D L : Type} [DecidableEq L] (held : F → List L) (f : F) : Stmt F D L → Prop
  | .acquire lk k => lk ∉ held f ∧ (held k).Perm (lk :: held f)
  | .release lk k => (held f).Perm (lk :: held k)
  | .sleep _ lk k => held f = [lk] ∧ held k = [lk]
  | .wakeup _ k => held k = held f
  | .killed k => ∀ b, held (k b) = held f
  | .update _ k => held k = held f
  | .ret => held f = []

/-- Kernel code outside `proc.c`, as a program over its own data and its own spinlocks. `code f self pid d x`
is the statement at program point `f`; `x` stands for what the environment decides. -/
structure Client where
  /-- Program points, with the local variables. -/
  Frame : Type
  Data : Type
  Lk : Type
  [decLk : DecidableEq Lk]
  code : Frame → Option Slot → Int → Data → Nat → Stmt Frame Data Lk
  /-- The spinlocks held at a program point. -/
  held : Frame → List Lk
  /-- The program points at which a system call of a process may start. -/
  entry : Frame → Bool
  /-- The program points at which an interrupt handler may start. -/
  handler : Frame → Bool
  /-- `fileclose(f)`, called by `exit`. -/
  fileclose : Nat → Frame
  /-- `begin_op(); iput(cwd); end_op()`, called by `exit`. -/
  iput : Nat → Frame
  /-- `fsinit(ROOTDEV)`, called by the first `forkret`. -/
  fsinit : Frame
  code_locked : ∀ f self pid d x, (code f self pid d x).Locked held f
  held_entry : ∀ f, entry f = true → held f = []
  held_handler : ∀ f, handler f = true → held f = []
  held_fileclose : ∀ n, held (fileclose n) = []
  held_iput : ∀ n, held (iput n) = []
  held_fsinit : held fsinit = []

attribute [instance] Client.decLk

/-- The spinlocks. `pid_lock` protects only the increment of `nextpid`, one step here. -/
inductive Lock (M : Client) where
  | proc (p : Slot)
  | wait
  /-- A spinlock of the code outside `proc.c`. -/
  | client (lk : M.Lk)
  deriving DecidableEq

/-! ## Program points -/

/-- Program points of `scheduler`. `i` is the slot the loop is at, `found` its flag. -/
inductive SchedulerPc where
  /-- `c->proc = 0`. -/
  | start
  /-- The head of the inner loop: `acquire(&p->lock)`, or the end of the table. -/
  | loop (i : Slot) (found : Bool)
  /-- The tests of `p->frozen` and `p->state`. -/
  | look (i : Slot) (found : Bool)
  /-- `c->proc = p`. -/
  | pick (i : Slot)
  /-- `swtch(&c->context, &p->context)`. -/
  | swtch (i : Slot)
  /-- Back from `swtch`: `c->proc = 0; found = 1`. -/
  | back (i : Slot)
  | rel (i : Slot) (found : Bool)
  deriving DecidableEq

inductive YieldPc where
  | acq | set | rel
  deriving DecidableEq

inductive SleepPc where
  | acq
  | rel
  /-- `p->chan = chan; p->state = SLEEPING; sched()`. -/
  | set
  /-- `p->chan = 0`. -/
  | tidy
  | unlock
  | reacq
  deriving DecidableEq

/-- The four functions that scan the process table, each slot under its lock. -/
inductive ScanOp where
  | wakeup (chan : Option Chan)
  | kill (pid : Int)
  | sysFreeze (pid : Int)
  | sysUnfreeze (pid : Int)
  deriving DecidableEq

/-- Program points of a scan, at some slot. -/
inductive ScanPc where
  /-- The loop test and `acquire(&p->lock)`. -/
  | test
  /-- The body of the loop, with `p->lock` held. -/
  | visit
  /-- `release(&p->lock)`, then the return of `r` if there is one. -/
  | rel (r : Option Int)
  deriving DecidableEq

/-- Program points of `fork` and of `allocproc` in it. `np` is the slot found. -/
inductive ForkPc where
  /-- `allocproc`: the loop test and `acquire(&p->lock)`. -/
  | alloc (i : Slot)
  /-- `allocproc`: the test of `p->state`. -/
  | check (i : Slot)
  /-- `allocproc`: `release(&p->lock)` of a slot in use. -/
  | skip (i : Slot)
  /-- `p->trapframe = kalloc()`. -/
  | trapframe (np : Slot)
  /-- `p->pagetable = proc_pagetable(p)`. -/
  | pagetable (np : Slot)
  /-- The new `p->context`. -/
  | context (np : Slot)
  /-- `uvmcopy`, then the copy of the parent's fields. -/
  | copy (np : Slot)
  /-- `freeproc(np)` on a failure. -/
  | undo (np : Slot)
  /-- `release(&np->lock); return -1`. -/
  | fail (np : Slot)
  /-- `release(&np->lock)` of the new process. -/
  | unlock (np : Slot) (pid : Int)
  | linkAcq (np : Slot) (pid : Int)
  /-- `np->parent = p`. -/
  | link (np : Slot) (pid : Int)
  | linkRel (np : Slot) (pid : Int)
  | runAcq (np : Slot) (pid : Int)
  /-- `np->state = RUNNABLE`. -/
  | run (np : Slot) (pid : Int)
  /-- `release(&np->lock); return pid`. -/
  | runRel (np : Slot) (pid : Int)
  deriving DecidableEq

inductive ExitPc where
  /-- The test for `initproc`. -/
  | start
  /-- The loop over the open files: `fileclose(f)`. -/
  | close (fd : Nat)
  /-- `p->ofile[fd] = 0`. -/
  | clear (fd : Nat)
  /-- `begin_op(); iput(p->cwd); end_op()`. -/
  | iput
  /-- `p->cwd = 0`. -/
  | clearCwd
  | acqWait
  /-- `reparent`: the loop over the table, at slot `i`. -/
  | reparent (i : Slot)
  /-- `wakeup(p->parent)`. -/
  | wakeParent
  | acqSelf
  /-- `p->xstate = status; p->state = ZOMBIE`. -/
  | zombie
  /-- `release(&wait_lock); sched()`. -/
  | relWait
  /-- `panic("zombie exit")`. -/
  | dead
  deriving DecidableEq

inductive WaitPc where
  | acqWait
  /-- The scan for exited children, at slot `i`. -/
  | scan (i : Slot) (havekids : Bool)
  /-- `pp->lock` held: the test for `ZOMBIE`, `copyout` and `freeproc`. -/
  | look (i : Slot)
  /-- `release(&pp->lock)` of a child that has not exited. -/
  | skip (i : Slot)
  /-- `release(&pp->lock)` before the return of `r`. -/
  | done (i : Slot) (r : Int)
  /-- The test `!havekids || killed(p)`, and `sleep(p, &wait_lock)`. -/
  | check (havekids : Bool)
  /-- `release(&wait_lock); return r`. -/
  | relWait (r : Int)
  deriving DecidableEq

inductive ForkretPc where
  /-- `release(&myproc()->lock)`. -/
  | rel
  /-- The test of `first`, and `fsinit(ROOTDEV)`. -/
  | init
  /-- `first = 0`. -/
  | clear
  deriving DecidableEq

/-- An active function of a kernel thread. `sched` and `sleep` carry the frame `ret` they return
to. -/
inductive Frame (M : Client) where
  | scheduler (pc : SchedulerPc)
  /-- The process runs in user space, or in a system call on its private fields. -/
  | body (p : Slot)
  | forkret (p : Slot) (pc : ForkretPc)
  | yield (p : Slot) (pc : YieldPc)
  /-- `sched`: the four checks. -/
  | schedCheck (ret : Frame M)
  /-- `sched`: `swtch(&p->context, &mycpu()->context)`. -/
  | schedSwtch (p : Slot) (ret : Frame M)
  | sleep (p : Slot) (chan : Chan) (lk : Lock M) (pc : SleepPc) (ret : Frame M)
  | scan (op : ScanOp) (i : Slot) (pc : ScanPc)
  | fork (p : Slot) (pc : ForkPc)
  | exit (p : Slot) (status : Int) (pc : ExitPc)
  | wait (p : Slot) (addr : Nat) (pc : WaitPc)
  | client (f : M.Frame)
  /-- `panic(msg)` called at frame `at_`: this CPU never moves on. -/
  | panic (msg : String) (at_ : Frame M)

/-! ## State -/

/-- `struct proc`, with the contents of the trapframe page; `context` is the stack `swtch` resumes. -/
structure Proc (M : Client) where
  state : ProcState
  chan : Option Chan
  killed : Int
  xstate : Int
  pid : Int
  frozen : Int
  parent : Option Slot
  kstack : Nat
  sz : Nat
  pagetable : Nat
  trapframe : Nat
  regs : Nat → Nat
  context : List (Frame M)
  ofile : Nat → Nat
  cwd : Nat
  name : String

/-- `struct cpu`, with the stack of the CPU's scheduler thread. `on` is the process on whose kernel
stack the CPU executes, if it is not on the scheduler's own. -/
structure Cpu (M : Client) where
  proc : Option Slot
  context : List (Frame M)
  noff : Nat
  on : Option Slot
  stack : List (Frame M)

/-- The kernel's state. `locks l` is the CPU that holds `l`; `kst p` is what is on the kernel stack
of slot `p`. -/
structure State (M : Client) where
  procs : Slot → Proc M
  cpus : CpuId → Cpu M
  kst : Slot → List (Frame M)
  locks : Lock M → Option CpuId
  nextpid : Int
  initproc : Slot
  first : Bool
  data : M.Data

variable {M : Client}

namespace State

def stackOf (s : State M) (c : CpuId) : List (Frame M) :=
  match (s.cpus c).on with
  | none => (s.cpus c).stack
  | some p => s.kst p

def setStack (s : State M) (c : CpuId) (st : List (Frame M)) : State M :=
  match (s.cpus c).on with
  | none => { s with cpus := update s.cpus c { s.cpus c with stack := st } }
  | some p => { s with kst := update s.kst p st }

def setProc (s : State M) (p : Slot) (q : Proc M) : State M :=
  { s with procs := update s.procs p q }

def setCpu (s : State M) (c : CpuId) (u : Cpu M) : State M :=
  { s with cpus := update s.cpus c u }

def setNoff (s : State M) (c : CpuId) (n : Nat) : State M := s.setCpu c { s.cpus c with noff := n }

def setLock (s : State M) (l : Lock M) (h : Option CpuId) : State M :=
  { s with locks := update s.locks l h }

end State

end Xv6Freezer
