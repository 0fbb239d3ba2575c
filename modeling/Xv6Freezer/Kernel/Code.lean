import Xv6Freezer.Kernel.Basic

/-! # The kernel's code, one statement at a time

The functions of `kernel/proc.c` and the freezer calls. A function at a program point yields an `Instr`: it
takes or releases a spinlock, switches contexts, or does one read-and-write of the shared state, and says
which frames replace its own (`[]` returns, `[f]` goes on, `[g, f]` calls `g`). A run is any interleaving of
the CPUs' instructions.
-/

namespace Xv6Freezer

open Function (update)

variable {M : Client}

/-! ## What the functions do to one slot -/

/-- `freeproc`, on the fields of the slot. The pages it frees belong to the memory model. -/
def freeproc (q : Proc M) : Proc M :=
  { q with trapframe := 0, pagetable := 0, sz := 0, pid := 0, parent := none, name := "",
           chan := none, killed := 0, xstate := 0, state := .unused }

def wakeupVisit (chan : Option Chan) (q : Proc M) : Proc M × Option Int :=
  if q.state = .sleeping ∧ q.chan = chan then ({ q with state := .runnable }, none) else (q, none)

def killVisit (pid : Int) (q : Proc M) : Proc M × Option Int :=
  if q.pid = pid then
    let q := { q with killed := 1 }
    (if q.state = .sleeping then { q with state := .runnable } else q, some 0)
  else (q, none)

def sysFreezeVisit (pid : Int) (q : Proc M) : Proc M × Option Int :=
  if q.pid = pid then
    if q.state ≠ .zombie ∧ q.state ≠ .unused ∧ q.frozen = 0 then ({ q with frozen := 1 }, some 0)
    else (q, some (-1))
  else (q, none)

def sysUnfreezeVisit (pid : Int) (q : Proc M) : Proc M × Option Int :=
  if q.pid = pid then
    if q.frozen ≠ 0 then
      let q := { q with frozen := 0 }
      (if q.state = .sleeping then { q with state := .runnable } else q, some 0)
    else (q, some (-1))
  else (q, none)

/-- The loop body of a scan: the slot after it, and the value to return if the scan ends. -/
def visit : ScanOp → Proc M → Proc M × Option Int
  | .wakeup chan => wakeupVisit chan
  | .kill pid => killVisit pid
  | .sysFreeze pid => sysFreezeVisit pid
  | .sysUnfreeze pid => sysUnfreezeVisit pid

/-- What `fork` copies from the parent `pq` into the child `q`. -/
def copyParent (pq q : Proc M) : Proc M :=
  { q with sz := pq.sz
           regs := update pq.regs regA0 0
           ofile := fun fd => if pq.ofile fd ≠ 0 then pq.ofile fd else q.ofile fd
           cwd := pq.cwd
           name := pq.name }

/-! ## Instructions -/

inductive Write (M : Client) where
  | none
  /-- The slot `p` becomes `q`. -/
  | proc (p : Slot) (q : Proc M)
  /-- The slot `p` becomes `q`, and `nextpid` is incremented. -/
  | alloc (p : Slot) (q : Proc M)
  /-- `proc[p].parent = v`. -/
  | parent (p : Slot) (v : Option Slot)
  /-- `mycpu()->proc = v`. -/
  | cpuProc (v : Option Slot)
  | data (d : M.Data)
  /-- `first = 0` in `forkret`. -/
  | first

/-- One instruction, with the frames that replace the one that executes it. -/
inductive Instr (M : Client) where
  | acquire (l : Lock M) (k : List (Frame M))
  | release (l : Lock M) (k : List (Frame M))
  /-- `swtch(&c->context, &p->context)` of the scheduler. -/
  | swtchTo (p : Slot) (k : List (Frame M))
  /-- `swtch(&p->context, &mycpu()->context)` of `sched`. -/
  | swtchOut (p : Slot) (k : List (Frame M))
  | write (w : Write M) (k : List (Frame M))

def Instr.jump (k : List (Frame M)) : Instr M := .write .none k

def Instr.fail (msg : String) (f : Frame M) : Instr M := .jump [.panic msg f]

section Code

variable (s : State M) (c : CpuId)

def myproc : Option Slot := (s.cpus c).proc

def schedulerCode : SchedulerPc → Instr M
  | .start => .write (.cpuProc none) [.scheduler (.loop 0 false)]
  | .loop i found =>
    if i < NPROC then .acquire (.proc i) [.scheduler (.look i found)]
    else .jump [.scheduler (.loop 0 false)]
  | .look i found =>
    if (s.procs i).frozen ≠ 0 then .jump [.scheduler (.rel i found)]
    else if (s.procs i).state = .runnable then
      .write (.proc i { s.procs i with state := .running }) [.scheduler (.pick i)]
    else .jump [.scheduler (.rel i found)]
  | .pick i => .write (.cpuProc (some i)) [.scheduler (.swtch i)]
  | .swtch i => .swtchTo i [.scheduler (.back i)]
  | .back i => .write (.cpuProc none) [.scheduler (.rel i true)]
  | .rel i found => .release (.proc i) [.scheduler (.loop (i + 1) found)]

def yieldCode (p : Slot) : YieldPc → Instr M
  | .acq => .acquire (.proc p) [.yield p .set]
  | .set => .write (.proc p { s.procs p with state := .runnable }) [.schedCheck (.yield p .rel)]
  | .rel => .release (.proc p) []

/-- `sched()` up to `swtch`. Interrupts are off whenever `noff > 0`, so that `intr_get()` is not modelled. A
null `myproc()` faults in the kernel. -/
def schedCode (ret : Frame M) : Instr M :=
  match myproc s c with
  | none => .fail "kerneltrap" (.schedCheck ret)
  | some p =>
    if s.locks (.proc p) ≠ some c then .fail "sched p->lock" (.schedCheck ret)
    else if (s.cpus c).noff ≠ 1 then .fail "sched locks" (.schedCheck ret)
    else if (s.procs p).state = .running then .fail "sched running" (.schedCheck ret)
    else .jump [.schedSwtch p ret]

/-- The call `sleep(chan, lk)` at frame `f`, returning to `ret`. -/
def callSleep (f : Frame M) (chan : Chan) (lk : Lock M) (ret : Frame M) : Instr M :=
  match myproc s c with
  | none => .fail "kerneltrap" f
  | some p => .jump [.sleep p chan lk .acq ret]

def sleepCode (p : Slot) (chan : Chan) (lk : Lock M) (ret : Frame M) : SleepPc → Instr M
  | .acq => .acquire (.proc p) [.sleep p chan lk .rel ret]
  | .rel => .release lk [.sleep p chan lk .set ret]
  | .set =>
    .write (.proc p { s.procs p with chan := some chan, state := .sleeping })
      [.schedCheck (.sleep p chan lk .tidy ret)]
  | .tidy => .write (.proc p { s.procs p with chan := none }) [.sleep p chan lk .unlock ret]
  | .unlock => .release (.proc p) [.sleep p chan lk .reacq ret]
  | .reacq => .acquire lk [ret]

/-- Does this scan pass over slot `i`? Only `wakeup` does, at the caller's own slot. -/
def skips (op : ScanOp) (i : Slot) : Bool :=
  match op with
  | .wakeup _ => myproc s c == some i
  | _ => false

/-- `wakeup`, `kill`, `sys_freeze` and `sys_unfreeze`. -/
def scanCode (op : ScanOp) (i : Slot) : ScanPc → Instr M
  | .test =>
    if i < NPROC then
      if skips s c op i then .jump [.scan op (i + 1) .test]
      else .acquire (.proc i) [.scan op i .visit]
    else .jump []
  | .visit =>
    .write (.proc i (visit op (s.procs i)).1) [.scan op i (.rel (visit op (s.procs i)).2)]
  | .rel none => .release (.proc i) [.scan op (i + 1) .test]
  | .rel (some _) => .release (.proc i) []

/-- `fork()` of process `p`, with `allocproc()`. `x` is what the allocator answers: the trapframe page, the
page table, and whether `uvmcopy` succeeded; 0 is a failure. -/
def forkCode (p : Slot) (x : Nat) : ForkPc → Instr M
  | .alloc i => if i < NPROC then .acquire (.proc i) [.fork p (.check i)] else .jump []
  | .check i =>
    if (s.procs i).state = .unused then
      .write (.alloc i { s.procs i with pid := s.nextpid, state := .used }) [.fork p (.trapframe i)]
    else .jump [.fork p (.skip i)]
  | .skip i => .release (.proc i) [.fork p (.alloc (i + 1))]
  | .trapframe np =>
    .write (.proc np { s.procs np with trapframe := x })
      [.fork p (if x = 0 then .undo np else .pagetable np)]
  | .pagetable np =>
    .write (.proc np { s.procs np with pagetable := x })
      [.fork p (if x = 0 then .undo np else .context np)]
  | .context np =>
    .write (.proc np { s.procs np with context := [.forkret np .rel] }) [.fork p (.copy np)]
  | .copy np =>
    if x = 0 then .jump [.fork p (.undo np)]
    else .write (.proc np (copyParent (s.procs p) (s.procs np)))
      [.fork p (.unlock np (s.procs np).pid)]
  | .undo np => .write (.proc np (freeproc (s.procs np))) [.fork p (.fail np)]
  | .fail np => .release (.proc np) []
  | .unlock np pid => .release (.proc np) [.fork p (.linkAcq np pid)]
  | .linkAcq np pid => .acquire .wait [.fork p (.link np pid)]
  | .link np pid => .write (.parent np (some p)) [.fork p (.linkRel np pid)]
  | .linkRel np pid => .release .wait [.fork p (.runAcq np pid)]
  | .runAcq np pid => .acquire (.proc np) [.fork p (.run np pid)]
  | .run np pid =>
    .write (.proc np { s.procs np with state := .runnable }) [.fork p (.runRel np pid)]
  | .runRel np _ => .release (.proc np) []

/-- `exit(status)` of process `p`, with `reparent(p)`. -/
def exitCode (p : Slot) (status : Int) : ExitPc → Instr M
  | .start =>
    if p = s.initproc then .fail "init exiting" (.exit p status .start)
    else .jump [.exit p status (.close 0)]
  | .close fd =>
    if fd < NOFILE then
      if (s.procs p).ofile fd ≠ 0 then
        .jump [.client (M.fileclose ((s.procs p).ofile fd)), .exit p status (.clear fd)]
      else .jump [.exit p status (.close (fd + 1))]
    else .jump [.exit p status .iput]
  | .clear fd =>
    .write (.proc p { s.procs p with ofile := update (s.procs p).ofile fd 0 })
      [.exit p status (.close (fd + 1))]
  | .iput => .jump [.client (M.iput (s.procs p).cwd), .exit p status .clearCwd]
  | .clearCwd => .write (.proc p { s.procs p with cwd := 0 }) [.exit p status .acqWait]
  | .acqWait => .acquire .wait [.exit p status (.reparent 0)]
  | .reparent i =>
    if i < NPROC then
      if (s.procs i).parent = some p then
        .write (.parent i (some s.initproc))
          [.scan (.wakeup (some (.proc s.initproc))) 0 .test, .exit p status (.reparent (i + 1))]
      else .jump [.exit p status (.reparent (i + 1))]
    else .jump [.exit p status .wakeParent]
  | .wakeParent =>
    .jump [.scan (.wakeup ((s.procs p).parent.map .proc)) 0 .test, .exit p status .acqSelf]
  | .acqSelf => .acquire (.proc p) [.exit p status .zombie]
  | .zombie =>
    .write (.proc p { s.procs p with xstate := status, state := .zombie }) [.exit p status .relWait]
  | .relWait => .release .wait [.schedCheck (.exit p status .dead)]
  | .dead => .fail "zombie exit" (.exit p status .dead)

/-- `wait(addr)` of process `p`. `x = 0` is a `copyout` that fails. -/
def waitCode (p : Slot) (addr x : Nat) : WaitPc → Option (Instr M)
  | .acqWait => some (.acquire .wait [.wait p addr (.scan 0 false)])
  | .scan i havekids =>
    if i < NPROC then
      if (s.procs i).parent = some p then some (.acquire (.proc i) [.wait p addr (.look i)])
      else some (.jump [.wait p addr (.scan (i + 1) havekids)])
    else some (.jump [.wait p addr (.check havekids)])
  | .look i =>
    if (s.procs i).state = .zombie then
      if addr ≠ 0 ∧ x = 0 then some (.jump [.wait p addr (.done i (-1))])
      else some (.write (.proc i (freeproc (s.procs i))) [.wait p addr (.done i (s.procs i).pid)])
    else some (.jump [.wait p addr (.skip i)])
  | .skip i => some (.release (.proc i) [.wait p addr (.scan (i + 1) true)])
  | .done i r => some (.release (.proc i) [.wait p addr (.relWait r)])
  | .check havekids =>
    if havekids = false then some (.jump [.wait p addr (.relWait (-1))])
    else if s.locks (.proc p) ≠ none then none
    else if (s.procs p).killed ≠ 0 then some (.jump [.wait p addr (.relWait (-1))])
    else some (callSleep s c (.wait p addr (.check havekids)) (.proc p) .wait
      (.wait p addr (.scan 0 false)))
  | .relWait _ => some (.release .wait [])

def forkretCode (p : Slot) : ForkretPc → Instr M
  | .rel =>
    match myproc s c with
    | none => .fail "kerneltrap" (.forkret p .rel)
    | some q => .release (.proc q) [.forkret p .init]
  | .init => if s.first then .jump [.client M.fsinit, .forkret p .clear] else .jump [.body p]
  | .clear => .write .first [.body p]

def mypid : Int := (myproc s c).elim 0 fun p => (s.procs p).pid

def clientCode (f : M.Frame) (x : Nat) : Option (Instr M) :=
  match M.code f (myproc s c) (mypid s c) s.data x with
  | .acquire lk k => some (.acquire (.client lk) [.client k])
  | .release lk k => some (.release (.client lk) [.client k])
  | .sleep chan lk k => some (callSleep s c (.client f) (.addr chan) (.client lk) (.client k))
  | .wakeup chan k => some (.jump [.scan (.wakeup (some (.addr chan))) 0 .test, .client k])
  | .killed k =>
    match myproc s c with
    | none => some (.fail "kerneltrap" (.client f))
    | some p =>
      if s.locks (.proc p) ≠ none then none
      else some (.jump [.client (k (decide ((s.procs p).killed ≠ 0)))])
  | .update d k => some (.write (.data d) [.client k])
  | .ret => some (.jump [])

/-- The next instruction of a thread with this innermost frame. -/
def code (x : Nat) : Frame M → Option (Instr M)
  | .scheduler pc => some (schedulerCode s pc)
  | .body _ => none
  | .forkret p pc => some (forkretCode s c p pc)
  | .yield p pc => some (yieldCode s p pc)
  | .schedCheck ret => some (schedCode s c ret)
  | .schedSwtch p ret => some (.swtchOut p [ret])
  | .sleep p chan lk pc ret => some (sleepCode s p chan lk ret pc)
  | .scan op i pc => some (scanCode s c op i pc)
  | .fork p pc => some (forkCode s p x pc)
  | .exit p status pc => some (exitCode s p status pc)
  | .wait p addr pc => waitCode s c p addr x pc
  | .client f => clientCode s c f x
  | .panic _ _ => none

end Code

/-! ## System calls of a process in user space -/

/-- The fields that only the process itself uses, as other system calls and the trap code leave them. -/
structure Private where
  sz : Nat
  pagetable : Nat
  regs : Nat → Nat
  ofile : Nat → Nat
  cwd : Nat
  name : String

/-- Give the private fields of a slot new values. -/
def Private.apply (v : Private) (q : Proc M) : Proc M :=
  { q with sz := v.sz, pagetable := v.pagetable, regs := v.regs, ofile := v.ofile, cwd := v.cwd,
           name := v.name }

/-- What a process in user space may do next. -/
inductive Call (M : Client) where
  | fork
  | exit (status : Int)
  | wait (addr : Nat)
  | kill (pid : Int)
  | sysFreeze (pid : Int)
  | sysUnfreeze (pid : Int)
  | op (f : M.Frame)
  | priv (v : Private)
  | setkilled

/-- The instruction of a call made by the process `p` in user space, whose base frame is `b`. -/
def callCode (s : State M) (p : Slot) (b : Frame M) : Call M → Option (Instr M)
  | .fork => some (.jump [.fork p (.alloc 0), b])
  | .exit status => some (.jump [.exit p status .start, b])
  | .wait addr => some (.jump [.wait p addr .acqWait, b])
  | .kill pid => some (.jump [.scan (.kill pid) 0 .test, b])
  | .sysFreeze pid => some (.jump [.scan (.sysFreeze pid) 0 .test, b])
  | .sysUnfreeze pid => some (.jump [.scan (.sysUnfreeze pid) 0 .test, b])
  | .op f => if M.entry f then some (.jump [.client f, b]) else none
  | .priv v => some (.write (.proc p (v.apply (s.procs p))) [b])
  | .setkilled =>
    if s.locks (.proc p) ≠ none then none
    else some (.write (.proc p { s.procs p with killed := 1 }) [b])

/-! ## Steps -/

/-- Apply a change of the shared state, on behalf of CPU `c`. -/
def State.apply (s : State M) (c : CpuId) : Write M → State M
  | .none => s
  | .proc p q => s.setProc p q
  | .alloc p q => { s.setProc p q with nextpid := int32 (s.nextpid + 1) }
  | .parent p v => s.setProc p { s.procs p with parent := v }
  | .cpuProc v => s.setCpu c { s.cpus c with proc := v }
  | .data d => { s with data := d }
  | .first => { s with first := false }

/-- Execute an instruction of the frame `f`, above the frames `rest`. A taken lock makes `acquire` spin. -/
def exec (s : State M) (c : CpuId) (f : Frame M) (rest : List (Frame M)) : Instr M → Option (State M)
  | .acquire l k =>
    if s.locks l = some c then some (s.setStack c (.panic "acquire" f :: rest))
    else if s.locks l ≠ none then none
    else some (((s.setLock l (some c)).setNoff c ((s.cpus c).noff + 1)).setStack c (k ++ rest))
  | .release l k =>
    if s.locks l ≠ some c then some (s.setStack c (.panic "release" f :: rest))
    else some (((s.setLock l none).setNoff c ((s.cpus c).noff - 1)).setStack c (k ++ rest))
  | .swtchTo p k =>
    some { s with
      cpus := update s.cpus c
        { s.cpus c with context := k ++ rest, stack := k ++ rest, on := some p }
      kst := update s.kst p (s.procs p).context }
  | .swtchOut p k =>
    some { s with
      procs := update s.procs p { s.procs p with context := k ++ rest }
      cpus := update s.cpus c { s.cpus c with stack := (s.cpus c).context, on := none }
      kst := update s.kst p (k ++ rest) }
  | .write w k => some ((s.apply c w).setStack c (k ++ rest))

/-- What happens on a CPU: its next instruction (`x` is the environment's answer), a system call of its
process, a device interrupt, or the timer. -/
inductive Act (M : Client) where
  | go (x : Nat)
  | call (k : Call M)
  | intr (f : M.Frame)
  | timer

/-- One step of CPU `c`. Interrupts come only while no spinlock is held; the timer makes a process `yield()`.
-/
def kstep (s : State M) (c : CpuId) (a : Act M) : Option (State M) :=
  match s.stackOf c with
  | [] => none
  | f :: rest =>
    match a with
    | .go x => (code s c x f).bind (exec s c f rest)
    | .call k =>
      match f, myproc s c with
      | .body _, some p => (callCode s p f k).bind (exec s c f rest)
      | _, _ => none
    | .intr h =>
      if (s.cpus c).noff = 0 ∧ M.handler h then exec s c f rest (.jump [.client h, f]) else none
    | .timer =>
      match myproc s c with
      | some p => if (s.cpus c).noff = 0 then exec s c f rest (.jump [.yield p .acq, f]) else none
      | none => none

def procinit (i : Slot) : Proc M :=
  { state := .unused, chan := none, killed := 0, xstate := 0, pid := 0, frozen := 0, parent := none,
    kstack := 2 ^ 38 - PGSIZE - (i + 1) * 2 * PGSIZE, sz := 0, pagetable := 0, trapframe := 0,
    regs := fun _ => 0, context := [], ofile := fun _ => 0, cwd := 0, name := "" }

def userinit (tf pt cwd : Nat) : Proc M :=
  { (procinit 0 : Proc M) with
      pid := 1, state := .runnable, trapframe := tf, pagetable := pt, sz := PGSIZE, cwd := cwd,
      name := "initcode", context := [.forkret 0 .rel] }

def boot (tf pt cwd : Nat) (d : M.Data) : State M :=
  { procs := update procinit 0 (userinit tf pt cwd)
    cpus := fun _ =>
      { proc := none, context := [], noff := 0, on := none, stack := [.scheduler .start] }
    kst := fun _ => []
    locks := fun _ => none
    nextpid := 2
    initproc := 0
    first := true
    data := d }

/-- The kernel as a transition system. The initial data of the other code satisfy `init`. -/
def kernel (M : Client) (init : M.Data → Prop) : Lib.Lts (State M) (CpuId × Act M) where
  init s := ∃ tf pt cwd d, init d ∧ s = boot tf pt cwd d
  step s a := kstep s a.1 a.2

/-! ## Observable events -/

inductive Event where
  | tau
  | picks (p : Slot)
  /-- `sys_freeze(pid)` succeeds on the slot. -/
  | freezes (p : Slot) (pid : Int)
  /-- `sys_unfreeze(pid)` succeeds on the slot. -/
  | unfreezes (p : Slot) (pid : Int)
  /-- `fork` has built a process with this pid in the slot. -/
  | creates (p : Slot) (pid : Int)
  | reaps (p : Slot)
  deriving DecidableEq

/-- The event of the next instruction of frame `f`, when the environment answers `x`. -/
def frameEvent (s : State M) (x : Nat) : Frame M → Event
  | .scheduler (.look i _) =>
    if (s.procs i).frozen = 0 ∧ (s.procs i).state = .runnable then .picks i else .tau
  | .scan (.sysFreeze pid) i .visit =>
    if (sysFreezeVisit pid (s.procs i)).2 = some 0 then .freezes i pid else .tau
  | .scan (.sysUnfreeze pid) i .visit =>
    if (sysUnfreezeVisit pid (s.procs i)).2 = some 0 then .unfreezes i pid else .tau
  | .fork _ (.copy np) => if x = 0 then .tau else .creates np (s.procs np).pid
  | .wait _ addr (.look i) =>
    if (s.procs i).state = .zombie ∧ ¬ (addr ≠ 0 ∧ x = 0) then .reaps i else .tau
  | _ => .tau

def event (s : State M) (a : CpuId × Act M) : Event :=
  match s.stackOf a.1, a.2 with
  | f :: _, .go x => frameEvent s x f
  | _, _ => .tau

def idleClient : Client where
  Frame := Unit
  Data := Unit
  Lk := Empty
  code _ _ _ _ _ := .ret
  held _ := []
  entry _ := true
  handler _ := true
  fileclose _ := ()
  iput _ := ()
  fsinit := ()
  code_locked _ _ _ _ _ := rfl
  held_entry _ _ := rfl
  held_handler _ _ := rfl
  held_fileclose _ := rfl
  held_iput _ := rfl
  held_fsinit := rfl

/-- `proc.c` and the freezer calls with no other kernel code. -/
def idleKernel : Lib.Lts (State idleClient) (CpuId × Act idleClient) :=
  kernel idleClient fun _ => True

/-- CPU `c` executes `n` instructions; every allocation succeeds. -/
def goes (c n : Nat) : List (CpuId × Act M) := List.replicate n (c, .go 1)

def idleBoot : State idleClient := boot 1 1 1 ()

theorem idleKernel_init : idleKernel.init idleBoot := ⟨1, 1, 1, (), trivial, rfl⟩

end Xv6Freezer
