import Xv6Freezer.Kernel.Code

/-! # What is on the kernel stacks

Static facts about frames: which spinlocks a frame holds (`Frame.held`), which state the process has
while the frame is innermost (`Frame.stateIn`), and which frames can lie on which (`ProcStack`,
`SchedStack`).
-/

namespace Xv6Freezer

variable {M : Client}

/-! ## Spinlocks held -/

def SchedulerPc.held : SchedulerPc → List (Lock M)
  | .start | .loop _ _ => []
  | .look i _ | .pick i | .swtch i | .back i | .rel i _ => [.proc i]

def SleepPc.held (p : Slot) (lk : Lock M) : SleepPc → List (Lock M)
  | .acq => [lk]
  | .rel => [.proc p, lk]
  | .set | .tidy | .unlock => [.proc p]
  | .reacq => []

def ForkPc.held : ForkPc → List (Lock M)
  | .alloc _ | .linkAcq _ _ | .runAcq _ _ => []
  | .check i | .skip i | .trapframe i | .pagetable i | .context i | .copy i | .undo i | .fail i
  | .unlock i _ | .run i _ | .runRel i _ => [.proc i]
  | .link _ _ | .linkRel _ _ => [.wait]

def ExitPc.held (p : Slot) : ExitPc → List (Lock M)
  | .start | .close _ | .clear _ | .iput | .clearCwd | .acqWait => []
  | .reparent _ | .wakeParent | .acqSelf => [.wait]
  | .zombie | .relWait => [.proc p, .wait]
  | .dead => [.proc p]

def WaitPc.held : WaitPc → List (Lock M)
  | .acqWait => []
  | .scan _ _ | .check _ | .relWait _ => [.wait]
  | .look i | .skip i | .done i _ => [.proc i, .wait]

/-- The spinlocks a frame holds, those of the frame it returns to included. -/
def Frame.held : Frame M → List (Lock M)
  | .scheduler pc => pc.held
  | .body _ => []
  | .forkret p .rel => [.proc p]
  | .forkret _ _ => []
  | .yield _ .acq => []
  | .yield p _ => [.proc p]
  | .schedCheck ret => ret.held
  | .schedSwtch _ ret => ret.held
  | .sleep p _ lk pc _ => pc.held p lk
  | .scan _ _ .test => []
  | .scan _ i _ => [.proc i]
  | .fork _ pc => pc.held
  | .exit p _ pc => pc.held p
  | .wait _ _ pc => pc.held
  | .client f => (M.held f).map .client
  | .panic _ f => f.held

def heldBy (st : List (Frame M)) : List (Lock M) := st.flatMap Frame.held

@[simp] theorem heldBy_nil : heldBy ([] : List (Frame M)) = [] := rfl

@[simp] theorem heldBy_cons (f : Frame M) (st : List (Frame M)) :
    heldBy (f :: st) = f.held ++ heldBy st := rfl

@[simp] theorem heldBy_append (st st' : List (Frame M)) :
    heldBy (st ++ st') = heldBy st ++ heldBy st' := List.flatMap_append

/-! ## The state of a process that executes -/

/-- The frames that `sched` returns to. -/
def Frame.resumes : Frame M → Prop
  | .yield _ .rel => True
  | .sleep _ _ _ .tidy _ => True
  | .exit _ _ .dead => True
  | _ => False

/-- The frames that `sleep(chan, lk)` returns to: code outside `proc.c`, and the scan of `wait`. -/
def Frame.sleeps (chan : Chan) : Frame M → Prop
  | .client _ => ∃ a, chan = .addr a
  | .wait p _ (.scan _ _) => chan = .proc p
  | _ => False

/-- The state given to the process before `sched` was called to return here. -/
def Frame.parked : Frame M → ProcState
  | .yield _ _ => .runnable
  | .sleep _ _ _ _ _ => .sleeping
  | _ => .zombie

/-- The state of a process with this frame innermost: `RUNNING`, except on the way to `swtch`. -/
def Frame.stateIn : Frame M → ProcState
  | .schedCheck ret => ret.parked
  | .schedSwtch _ ret => ret.parked
  | .exit _ _ .relWait => .zombie
  | .panic _ f => f.stateIn
  | _ => .running

/-- The state of a process that executes on this stack. -/
def stateIn : List (Frame M) → ProcState
  | [] => .running
  | f :: _ => f.stateIn

@[simp] theorem stateIn_cons (f : Frame M) (st : List (Frame M)) : stateIn (f :: st) = f.stateIn :=
  rfl

/-! ## Which frames lie on which -/

/-- At the bottom of a stack, a system call directly above, or anywhere above. -/
inductive Frame.Kind where
  | base | sys | nested
  deriving DecidableEq

def Frame.kind : Frame M → Frame.Kind
  | .scheduler _ | .body _ | .forkret _ _ => .base
  | .fork _ _ | .exit _ _ _ | .wait _ _ _ => .sys
  | .yield _ _ | .scan _ _ _ | .client _ => .nested
  | .schedCheck ret => ret.kind
  | .schedSwtch _ ret => ret.kind
  | .sleep _ _ _ _ ret => ret.kind
  | .panic _ f => f.kind

/-- Is it a scan of the process table? These are called with other spinlocks held. -/
def Frame.isScan : Frame M → Prop
  | .scan _ _ _ => True
  | .panic _ f => f.isScan
  | _ => False

def schedPanics : List String :=
  ["sched p->lock", "sched locks", "sched running", "sched interruptible"]

/-- The frame belongs to the thread of `p`, what it returns to fits, and it is no panic of `sched`. -/
def Frame.Ok (p : Slot) : Frame M → Prop
  | .scheduler _ => False
  | .body q | .forkret q _ | .yield q _ | .fork q _ | .exit q _ _ | .wait q _ _ => q = p
  | .schedCheck ret => ret.Ok p ∧ ret.resumes
  | .schedSwtch q ret => q = p ∧ ret.Ok p ∧ ret.resumes
  | .sleep q chan lk _ ret =>
    q = p ∧ ret.Ok p ∧ ret.sleeps chan ∧ ret.held = [lk] ∧ ∀ i, lk ≠ .proc i
  | .scan _ _ _ | .client _ => True
  | .panic msg f => f.Ok p ∧ msg ∉ schedPanics

def NoProcLock (ls : List (Lock M)) : Prop := ∀ i, Lock.proc i ∉ ls

/-- What may be held below a frame: nothing, but for a scan, which may be called with other locks held. -/
def HeldBelow (f : Frame M) (ls : List (Lock M)) : Prop := ls = [] ∨ (f.isScan ∧ NoProcLock ls)

/-- A well-formed stack of the kernel thread of `p`. -/
def ProcStack (p : Slot) : List (Frame M) → Prop
  | [] => False
  | f :: rest =>
    f.Ok p ∧ match f.kind with
      | .base => rest = []
      | .sys => rest = [.body p]
      | .nested => ProcStack p rest ∧ stateIn rest = .running ∧ HeldBelow f (heldBy rest)

def Frame.IsScheduler (pc : SchedulerPc) : Frame M → Prop
  | .scheduler pc' => pc' = pc
  | _ => False

/-- A frame that an interrupt can put on the scheduler thread's stack. -/
def Frame.OnScheduler : Frame M → Prop
  | .scan _ _ _ | .client _ => True
  | .panic msg f => f.OnScheduler ∧ msg ∉ schedPanics
  | _ => False

/-- A well-formed stack of the scheduler thread of a CPU, with `scheduler` at `pc`. -/
def SchedStack (pc : SchedulerPc) : List (Frame M) → Prop
  | [] => False
  | f :: rest =>
    f.IsScheduler pc ∧ rest = [] ∨
    f.OnScheduler ∧ SchedStack pc rest ∧ HeldBelow f (heldBy rest)

/-- The slot `c->proc` points to while `scheduler` is at a program point. -/
def SchedulerPc.cur : SchedulerPc → Option Slot
  | .swtch i | .back i => some i
  | _ => none

/-- The slot a `fork` has allocated and not yet made `RUNNABLE`. -/
def ForkPc.claims : ForkPc → Option Slot
  | .trapframe i | .pagetable i | .context i | .copy i | .undo i | .unlock i _ | .linkAcq i _
  | .link i _ | .linkRel i _ | .runAcq i _ | .run i _ => some i
  | _ => none

/-- Does this `fork` still build its child, under the lock taken by `allocproc`? -/
def ForkPc.building : ForkPc → Bool
  | .trapframe _ | .pagetable _ | .context _ | .copy _ | .undo _ => true
  | _ => false

/-- Has this `fork` set up the context of its child? -/
def ForkPc.built : ForkPc → Bool
  | .copy _ | .unlock _ _ | .linkAcq _ _ | .link _ _ | .linkRel _ _ | .runAcq _ _ | .run _ _ => true
  | _ => false

end Xv6Freezer
