import Xv6Freezer.Kernel.Basic

/-! # Interrupts and the kernel threads

`kernel/spinlock.c`, and `scheduler`, `sched`, `yield`, `sleep`, `exit` and `forkret` of `kernel/proc.c`, as
far as they concern interrupts. A kernel thread is the list of the steps it has still to make. The kernel code
of a process (`body`) and of an interrupt handler (`handler`) may make any call, and while interrupts are on
one may come between any two steps. That `2 ^ 31` calls of `push_off` are outstanding is left out.
-/

namespace Xv6Freezer.Intr

open Function (update)

inductive Lock (L : Type) where
  /-- `proc[p].lock`. -/
  | proc (p : Slot)
  | other (l : L)
  deriving DecidableEq

/-! ## Code -/

/-- One step of kernel code, with the local variables that it uses. -/
inductive Op (L : Type) where
  /-- `push_off`: `int old = intr_get()`. -/
  | intrGet
  /-- `push_off`: the rest. -/
  | pushOff (old : Bool)
  | popOff
  /-- `acquire`, after its `push_off`. -/
  | take (l : Lock L)
  /-- `release`, before its `pop_off`. -/
  | drop (l : Lock L)
  /-- `p->state = x`, for the process that executes. -/
  | setState (x : ProcState)
  /-- `sched`, up to its `swtch`. -/
  | sched
  /-- `sched`, back from `swtch`: `mycpu()->intena = intena`. -/
  | restore (intena : Bool)
  /-- `scheduler`: the head of the outer loop. -/
  | head
  /-- `scheduler`: the head of the inner loop. -/
  | scan (i : Slot) (found : Bool)
  /-- `scheduler`: the tests of `p->frozen` and `p->state`, and `swtch`. -/
  | pick (i : Slot) (found : Bool)
  /-- The kernel code of a process, between two calls. -/
  | body
  /-- The code of an interrupt handler, between two calls. -/
  | handler
  | panic (msg : String)
  deriving DecidableEq

section Code

variable {L : Type}

def acquire (l : Lock L) : List (Op L) := [.intrGet, .take l]

def release (l : Lock L) : List (Op L) := [.drop l, .popOff]

def yield (p : Slot) : List (Op L) :=
  acquire (.proc p) ++ [.setState .runnable, .sched] ++ release (.proc p)

def sleep (p : Slot) (lk : Lock L) : List (Op L) :=
  acquire (.proc p) ++ release lk ++ [.setState .sleeping, .sched] ++ release (.proc p) ++ acquire lk

/-- The end of `exit`, called with `wait_lock` held. -/
def exit (p : Slot) (wait_lock : Lock L) : List (Op L) :=
  acquire (.proc p) ++ [.setState .zombie] ++ release wait_lock ++ [.sched, .panic "zombie exit"]

def forkret (p : Slot) : List (Op L) := release (.proc p) ++ [.body]

end Code

structure Thread (L : Type) where
  todo : List (Op L)
  held : Finset (Lock L)
  bare : Nat
  outer : Option Bool

/-- How many `push_off`s of the thread are outstanding. -/
def Thread.depth {L : Type} (t : Thread L) : Nat := t.held.card + t.bare

/-- A thread that `allocproc` has prepared: it starts in `forkret`, with `p->lock` from the scheduler. -/
def Thread.fresh {L : Type} (p : Slot) : Thread L := ⟨forkret p, {.proc p}, 0, none⟩

/-- `struct cpu`, with the interrupt bit of the hart and the thread it executes. -/
structure Cpu (L : Type) where
  proc : Option Slot
  /-- The scheduler's thread, while a process executes. -/
  context : Thread L
  noff : Nat
  intena : Bool
  sie : Bool
  thread : Thread L

/-- The state. `context p` is `proc[p].context`, and `locks l` the CPU that has `l`. -/
structure State (L : Type) where
  cpus : CpuId → Cpu L
  context : Slot → Thread L
  locks : Lock L → Option CpuId
  state : Slot → ProcState
  frozen : Slot → Bool

variable {L : Type} [DecidableEq L]

def Cpu.goto (u : Cpu L) (k : List (Op L)) : Cpu L := { u with thread := { u.thread with todo := k } }

def State.setCpu (s : State L) (c : CpuId) (u : Cpu L) : State L :=
  { s with cpus := update s.cpus c u }

/-! ## Steps -/

/-- `push_off`, when `intr_get()` has returned `old`. -/
def Cpu.pushOff (u : Cpu L) (old : Bool) : Cpu L :=
  { u with sie := false, intena := if u.noff = 0 then old else u.intena, noff := u.noff + 1 }

def Cpu.popOff (u : Cpu L) : Except String (Cpu L) :=
  if u.sie then .error "pop_off - interruptible"
  else if u.noff < 1 then .error "pop_off"
  else .ok { u with noff := u.noff - 1,
                    sie := if u.noff - 1 = 0 ∧ u.intena = true then true else u.sie }

/-- One step of the thread on CPU `c`; `k` are the steps that follow. A spinlock that another CPU has makes
`acquire` spin: the step is not enabled. -/
def exec (nproc : Nat) (s : State L) (c : CpuId) (k : List (Op L)) : Op L → Option (State L) :=
  let u := s.cpus c
  let t := u.thread
  let panic (msg : String) := some (s.setCpu c (u.goto [.panic msg]))
  fun
  | .intrGet => some (s.setCpu c (u.goto (.pushOff u.sie :: k)))
  | .pushOff old =>
    some (s.setCpu c { u.pushOff old with thread :=
      { t with todo := k, bare := t.bare + 1, outer := if t.depth = 0 then some u.sie else t.outer } })
  | .popOff =>
    match u.popOff with
    | .error msg => panic msg
    | .ok u' => some (s.setCpu c { u' with thread := { t with todo := k, bare := t.bare - 1 } })
  | .take l =>
    if s.locks l = some c then panic "acquire"
    else if s.locks l ≠ none then none
    else some { s.setCpu c { u with thread :=
        { t with todo := k, held := insert l t.held, bare := t.bare - 1 } } with
      locks := update s.locks l (some c) }
  | .drop l =>
    if s.locks l ≠ some c then panic "release"
    else some { s.setCpu c { u with thread :=
        { t with todo := k, held := t.held.erase l, bare := t.bare + 1 } } with
      locks := update s.locks l none }
  | .setState x =>
    u.proc.map fun p => { s.setCpu c (u.goto k) with state := update s.state p x }
  | .sched =>
    u.proc.bind fun p =>
      if s.locks (.proc p) ≠ some c then panic "sched p->lock"
      else if u.noff ≠ 1 then panic "sched locks"
      else if s.state p = .running then panic "sched running"
      else if u.sie then panic "sched interruptible"
      else some { s.setCpu c { u with proc := none, thread := u.context } with
        context := update s.context p { t with todo := .restore u.intena :: k } }
  | .restore intena => some (s.setCpu c { u.goto k with intena := intena })
  | .head => some (s.setCpu c { u.goto [.scan 0 false] with sie := true })
  | .scan i found =>
    if i < nproc then some (s.setCpu c (u.goto (acquire (.proc i) ++ [.pick i found])))
    else some (s.setCpu c { u.goto [.head] with sie := u.sie || !found })
  | .pick i found =>
    if s.frozen i = false ∧ s.state i = .runnable then
      some { s.setCpu c { u with
          proc := some i
          context := { t with todo := release (.proc i) ++ [.scan (i + 1) true] }
          thread := s.context i } with
        state := update s.state i .running }
    else some (s.setCpu c (u.goto (release (.proc i) ++ [.scan (i + 1) found])))
  | .body | .handler | .panic _ => none

inductive Call (L : Type) where
  | pushOff | popOff | yield
  | acquire (l : Lock L)
  | release (l : Lock L)
  | sleep (lk : Lock L)
  | exit (wait_lock : Lock L)

/-- The code of a call. Calls are well nested: a `pop_off` has a `push_off` before it, `sleep` and `exit` get
a lock that is held, and only a process yields, sleeps and exits. -/
def Call.code (me : Option Slot) (t : Thread L) : Call L → Option (List (Op L))
  | .pushOff => some [.intrGet]
  | .popOff => if 0 < t.bare then some [.popOff] else none
  | .yield => me.map Intr.yield
  | .acquire l => some (Intr.acquire l)
  | .release l => some (Intr.release l)
  | .sleep lk => if lk ∈ t.held then me.map (Intr.sleep · lk) else none
  | .exit lk => if lk ∈ t.held then me.map (Intr.exit · lk) else none

/-- How others than the process and the scheduler may change `p->state` under `p->lock`. -/
def changes : ProcState → ProcState → Bool
  -- `wakeup`, `kill` and `sys_unfreeze`
  | .sleeping, .runnable => true
  -- `allocproc`; `userinit` and `fork`; `freeproc` in `fork` and in `wait`
  | .unused, .used | .used, .runnable | .used, .unused | .zombie, .unused => true
  | x, y => x == y

inductive Act (L : Type) where
  /-- The next step of the thread. -/
  | go
  | call (f : Call L)
  /-- With `p->lock` held, `p->state` and `p->frozen` are written. -/
  | write (p : Slot) (x : ProcState) (frozen : Bool)
  /-- An interrupt: `kernelvec` and `kerneltrap` run on the thread's stack. -/
  | intr
  | sret
  /-- `intr_on()` and `intr_off()` of `usertrap` and `usertrapret`, and the way to user space and back. -/
  | intrSet (on : Bool)

def step (nproc : Nat) (s : State L) (c : CpuId) (a : Act L) : Option (State L) :=
  let u := s.cpus c
  let t := u.thread
  match a, t.todo with
  | .go, op :: k => exec nproc s c k op
  | .intr, op :: k =>
    if u.sie then some (s.setCpu c { u.goto (.handler :: op :: k) with sie := false }) else none
  | .sret, .handler :: k =>
    if t.depth = 0 then some (s.setCpu c { u.goto k with sie := true }) else none
  | .intrSet on, .body :: _ => if t.depth = 0 then some (s.setCpu c { u with sie := on }) else none
  | .call f, op :: k =>
    if op = .body ∨ op = .handler then
      (f.code u.proc t).map fun ops => s.setCpu c (u.goto (ops ++ op :: k))
    else none
  | .write p x z, op :: _ =>
    if (op = .body ∨ op = .handler) ∧ .proc p ∈ t.held ∧ changes (s.state p) x = true then
      some { s with
        state := update s.state p x
        frozen := update s.frozen p z
        context := if s.state p = .unused ∧ x = .used then update s.context p (.fresh p)
          else s.context }
    else none
  | _, _ => none

def boot (L : Type) : State L where
  cpus _ := ⟨none, ⟨[], ∅, 0, none⟩, 0, false, false, ⟨[.head], ∅, 0, none⟩⟩
  context := .fresh
  locks _ := none
  state p := if p = 0 then .runnable else .unused
  frozen _ := false

def machine (L : Type) [DecidableEq L] (nproc : Nat) : Lib.Lts (State L) (CpuId × Act L) where
  init s := s = boot L
  step s a := step nproc s a.1 a.2

end Xv6Freezer.Intr
