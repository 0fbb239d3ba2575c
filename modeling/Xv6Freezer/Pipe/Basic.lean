import Xv6Freezer.Kernel.Hold
import Xv6Freezer.Lib.RingBuffer

/-! # Pipes

`pipewrite`, `piperead` and `pipeclose` (`kernel/pipe.c`) as code that runs on the kernel of `proc.c`; what
`copyin` and `copyout` answer is left to the environment. The pipe is a **FIFO**, also when the counters wrap
around.
-/

namespace Xv6Freezer

open Lib

/-! ## Data -/

def PIPESIZE : Nat := 512

/-- `struct pipe`, with the bytes that went through it as history variables. -/
structure Pipe where
  data : Nat → UInt8
  nread : Nat
  nwrite : Nat
  readopen : Bool
  writeopen : Bool
  /-- History: the bytes that `pipewrite` has put into the buffer. -/
  accepted : List UInt8
  /-- History: the bytes that `piperead` has taken out of the buffer. -/
  removed : List UInt8

namespace Pipe

def ring (d : Pipe) : RingBuffer UInt8 := ⟨d.data, d.nread, d.nwrite⟩

/-- `pi->nread == pi->nwrite`. -/
def isEmpty (d : Pipe) : Bool := d.nread = d.nwrite

/-- `pi->nwrite == pi->nread + PIPESIZE`. -/
def isFull (d : Pipe) : Bool := d.nwrite = (d.nread + PIPESIZE) % 2 ^ 32

/-- `pi->data[pi->nwrite++ % PIPESIZE] = ch`. -/
def put (d : Pipe) (ch : UInt8) : Pipe :=
  { d with
    data := Function.update d.data (d.nwrite % PIPESIZE) ch
    nwrite := (d.nwrite + 1) % 2 ^ 32
    accepted := d.accepted ++ [ch] }

/-- `ch = pi->data[pi->nread++ % PIPESIZE]`. -/
def take (d : Pipe) : Pipe :=
  { d with
    nread := (d.nread + 1) % 2 ^ 32
    removed := d.removed ++ [d.data (d.nread % PIPESIZE)] }

/-- `pi->writeopen = 0` or `pi->readopen = 0`. -/
def close (d : Pipe) (writable : Bool) : Pipe :=
  if writable then { d with writeopen := false } else { d with readopen := false }

/-- What `pipealloc` makes of a page. -/
structure Fresh (d : Pipe) : Prop where
  nread : d.nread = 0
  nwrite : d.nwrite = 0
  readopen : d.readopen = true
  writeopen : d.writeopen = true
  accepted : d.accepted = []
  removed : d.removed = []

end Pipe

def pipealloc : Pipe :=
  { data := fun _ => 0, nread := 0, nwrite := 0, readopen := true, writeopen := true,
    accepted := [], removed := [] }

theorem pipealloc_fresh : pipealloc.Fresh := ⟨rfl, rfl, rfl, rfl, rfl, rfl⟩

/-! ## Code -/

def chanNread : Nat := 0

def chanNwrite : Nat := 1

/-- Program points. `n` and `i` are the local variables of the source; `new` says that the call has
put bytes into the pipe since it last called `wakeup(&pi->nread)`. -/
inductive PipePc where
  /-- `pipewrite`: `acquire(&pi->lock)`. -/
  | write (n : Int)
  /-- `pipewrite`: the loop test, and the tests of `readopen` and `killed`. -/
  | writeTest (n : Int) (i : Nat) (new : Bool)
  /-- `pipewrite`: `release(&pi->lock); return -1`. -/
  | writeFail (new : Bool)
  /-- `pipewrite`: the test for a full buffer, `copyin` and the store. -/
  | writeBody (n : Int) (i : Nat) (new : Bool)
  /-- `pipewrite`: `sleep(&pi->nwrite, &pi->lock)`. -/
  | writeSleep (n : Int) (i : Nat)
  /-- `pipewrite`: `release(&pi->lock); return i`. -/
  | writeRel
  /-- `piperead`: `acquire(&pi->lock)`. -/
  | read (n : Int)
  /-- `piperead`: the loop test, and the test of `killed`. -/
  | readWait (n : Int)
  /-- `piperead`: `sleep(&pi->nread, &pi->lock)`. -/
  | readSleep (n : Int)
  /-- `piperead`: `copyout` of the byte just taken. -/
  | readCopy (n : Int) (i : Nat)
  /-- `piperead`: `release(&pi->lock)` and the return. -/
  | readRel
  /-- `pipeclose`: `acquire(&pi->lock)`. -/
  | close (writable : Bool)
  /-- `pipeclose`: the end is closed. -/
  | closeSet (writable : Bool)
  /-- `pipeclose`: `wakeup`. -/
  | closeWake (writable : Bool)
  | closeRel
  /-- `fileclose`: is this the last reference? -/
  | fileclose (writable : Bool)
  | done
  deriving DecidableEq

def readLoop (n : Int) (i : Nat) (d : Pipe) : Stmt PipePc Pipe Unit :=
  if (i : Int) < n ∧ d.isEmpty = false then .update d.take (.readCopy n i)
  else .wakeup chanNwrite .readRel

/-- The code. `x` is what the environment answers: for `copyin` the byte, or 256 and more for a
failure; for `copyout` 0 for a failure; for `fileclose` 0 if other references are left. -/
def pipeCode (f : PipePc) (d : Pipe) (x : Nat) : Stmt PipePc Pipe Unit :=
  match f with
  | .write n => .acquire () (.writeTest n 0 false)
  | .writeTest n i new =>
    if (i : Int) < n then
      if d.readopen = false then .release () .done
      else .killed fun k => if k then .writeFail new else .writeBody n i new
    else .wakeup chanNread .writeRel
  | .writeFail _ => .release () .done
  | .writeBody n i _ =>
    if d.isFull then .wakeup chanNread (.writeSleep n i)
    else if x < 256 then .update (d.put (UInt8.ofNat x)) (.writeTest n (i + 1) true)
    else .wakeup chanNread .writeRel
  | .writeSleep n i => .sleep chanNwrite () (.writeTest n i false)
  | .writeRel => .release () .done
  | .read n => .acquire () (.readWait n)
  | .readWait n =>
    if d.isEmpty ∧ d.writeopen then .killed fun k => if k then .readRel else .readSleep n
    else readLoop n 0 d
  | .readSleep n => .sleep chanNread () (.readWait n)
  | .readCopy n i => if x = 0 then .wakeup chanNwrite .readRel else readLoop n (i + 1) d
  | .readRel => .release () .done
  | .close writable => .acquire () (.closeSet writable)
  | .closeSet writable => .update (d.close writable) (.closeWake writable)
  | .closeWake writable => .wakeup (if writable then chanNread else chanNwrite) .closeRel
  | .closeRel => .release () .done
  | .fileclose writable => if x = 0 then .ret else .acquire () (.closeSet writable)
  | .done => .ret

def pipeHeld : PipePc → List Unit
  | .write _ | .read _ | .close _ | .fileclose _ | .done => []
  | _ => [()]

/-- The system calls: `pipewrite`, `piperead`, and `fileclose` on an end of the pipe. -/
def pipeEntry : PipePc → Bool
  | .write _ | .read _ | .close _ | .fileclose _ => true
  | _ => false

theorem readLoop_locked {n : Int} {i : Nat} {d : Pipe} {f : PipePc} (hf : pipeHeld f = [()]) :
    (readLoop n i d).Locked pipeHeld f := by
  unfold readLoop
  split <;> exact hf.symm

theorem pipeCode_locked (f : PipePc) (d : Pipe) (x : Nat) :
    (pipeCode f d x).Locked pipeHeld f := by
  cases f with
  | writeTest n i new =>
    simp only [pipeCode]
    split
    · split
      · exact List.Perm.refl _
      · intro k
        cases k <;> rfl
    · rfl
  | writeBody n i new =>
    simp only [pipeCode]
    split
    · rfl
    · split <;> rfl
  | readWait n =>
    simp only [pipeCode]
    split
    · intro k
      cases k <;> rfl
    · exact readLoop_locked rfl
  | readCopy n i =>
    simp only [pipeCode]
    split
    · rfl
    · exact readLoop_locked rfl
  | fileclose writable =>
    simp only [pipeCode]
    split
    · rfl
    · exact ⟨List.not_mem_nil, List.Perm.refl _⟩
  | write | read | close => exact ⟨List.not_mem_nil, List.Perm.refl _⟩
  | writeSleep | readSleep => exact ⟨rfl, rfl⟩
  | writeFail | writeRel | readRel | closeRel => exact List.Perm.refl _
  | closeSet | closeWake | done => rfl

/-- The pipe as kernel code. `exit` closes the open ends: odd files are write ends. -/
def pipeClient : Client where
  Frame := PipePc
  Data := Pipe
  Lk := Unit
  code f _ _ d x := pipeCode f d x
  held := pipeHeld
  entry := pipeEntry
  handler _ := false
  fileclose n := .fileclose (n % 2 = 1)
  iput _ := .done
  fsinit := .done
  code_locked f _ _ d x := pipeCode_locked f d x
  held_entry f h := by
    cases f with
    | write | read | close | fileclose => rfl
    | _ => cases h
  held_handler _ h := by cases h
  held_fileclose _ := rfl
  held_iput _ := rfl
  held_fsinit := rfl

def pipeKernel : Lib.Lts (State pipeClient) (CpuId × Act pipeClient) :=
  kernel pipeClient Pipe.Fresh

/-! ## First in, first out -/

/-- The invariant: the buffer holds the bytes that have been accepted and not removed. -/
def Pipe.Ok (d : Pipe) : Prop :=
  ∃ l, d.accepted = d.removed ++ l ∧ RingBuffer.Rep PIPESIZE (2 ^ 32) d.ring d.removed.length l

namespace Pipe

variable {d : Pipe}

theorem Fresh.ok (h : d.Fresh) : d.Ok := by
  refine ⟨[], ?_, ?_⟩
  · rw [h.accepted, h.removed]
    rfl
  · rw [h.removed]
    exact ⟨h.nread, h.nwrite, Nat.zero_le _, fun j hj => absurd hj (Nat.not_lt_zero j)⟩

theorem Ok.put (h : d.Ok) (hroom : d.isFull = false) (ch : UInt8) : (d.put ch).Ok := by
  obtain ⟨l, hacc, hrep⟩ := h
  have hne : l.length ≠ PIPESIZE := fun hlen =>
    of_decide_eq_false hroom ((hrep.full_iff (by decide)).2 hlen)
  refine ⟨l ++ [ch], ?_, hrep.put (by decide) (lt_of_le_of_ne hrep.length_le hne)⟩
  show d.accepted ++ [ch] = _
  rw [hacc, List.append_assoc]
  rfl

theorem Ok.take (h : d.Ok) (hne : d.isEmpty = false) : d.take.Ok := by
  obtain ⟨l, hacc, hrep⟩ := h
  cases l with
  | nil => exact absurd ((hrep.empty_iff (by decide)).2 rfl) (of_decide_eq_false hne)
  | cons x l =>
    have hhead : d.data (d.nread % PIPESIZE) = x := hrep.head (by decide)
    refine ⟨l, ?_, ?_⟩
    · show d.accepted = d.removed ++ [d.data (d.nread % PIPESIZE)] ++ l
      rw [hacc, hhead, List.append_assoc]
      rfl
    · show RingBuffer.Rep _ _ _ (d.removed ++ [_]).length l
      rw [List.length_append]
      exact hrep.take

theorem Ok.close (h : d.Ok) (writable : Bool) : (d.close writable).Ok := by
  cases writable <;> exact h

end Pipe

theorem pipeCode_ok {f k : PipePc} {d d' : Pipe} {x : Nat} (hc : pipeCode f d x = .update d' k)
    (h : d.Ok) : d'.Ok := by
  have hloop : ∀ {n i}, readLoop n i d = .update d' k → d'.Ok := by
    intro n i hl
    unfold readLoop at hl
    split at hl
    · rename_i hne
      cases hl
      exact h.take hne.2
    · cases hl
  cases f with
  | writeTest n i new =>
    simp only [pipeCode] at hc
    split at hc
    · split at hc <;> cases hc
    · cases hc
  | writeBody n i new =>
    simp only [pipeCode] at hc
    split at hc
    · cases hc
    · rename_i hroom
      split at hc
      · cases hc
        exact h.put (Bool.eq_false_iff.2 hroom) _
      · cases hc
  | readWait | readCopy =>
    simp only [pipeCode] at hc
    split at hc
    · cases hc
    · exact hloop hc
  | closeSet writable =>
    cases hc
    exact h.close writable
  | fileclose writable =>
    simp only [pipeCode] at hc
    split at hc <;> cases hc
  | _ => cases hc

/-- **A pipe is first in, first out.** The bytes removed are a prefix of the bytes accepted, the difference of
the 32-bit counters is the number of bytes in between, at most `PIPESIZE`, and these are in the ring from
`nread` on. -/
theorem pipe_fifo {s : State pipeClient} (h : pipeKernel.Reachable s) :
    s.data.removed <+: s.data.accepted ∧
    s.data.nread = s.data.removed.length % 2 ^ 32 ∧
    s.data.nwrite = s.data.accepted.length % 2 ^ 32 ∧
    (s.data.nwrite + (2 ^ 32 - s.data.nread)) % 2 ^ 32 =
      s.data.accepted.length - s.data.removed.length ∧
    s.data.accepted.length - s.data.removed.length ≤ PIPESIZE ∧
    ∀ k (hk : s.data.removed.length + k < s.data.accepted.length),
      s.data.data ((s.data.nread + k) % 2 ^ 32 % PIPESIZE) =
        s.data.accepted[s.data.removed.length + k] := by
  obtain ⟨l, hacc, hrep⟩ : s.data.Ok :=
    reachable_data (I := Pipe.Ok) h (fun _ hd => hd.ok) fun _ _ _ _ _ _ _ hc hd => pipeCode_ok hc hd
  have hlen : s.data.accepted.length = s.data.removed.length + l.length := by
    rw [hacc, List.length_append]
  have hdiff : s.data.accepted.length - s.data.removed.length = l.length := by omega
  refine ⟨⟨l, hacc.symm⟩, hrep.r_eq, ?_, ?_, ?_, fun k hk => ?_⟩
  · rw [hlen]
    exact hrep.w_eq
  · rw [hdiff]
    exact hrep.length_eq (by decide)
  · rw [hdiff]
    exact hrep.length_le
  · have hcell := hrep.cell k (by omega)
    have hmod : (s.data.nread + k) % 2 ^ 32 % PIPESIZE = (s.data.removed.length + k) % PIPESIZE := by
      rw [Nat.mod_mod_of_dvd _ (by decide), show s.data.nread = _ from hrep.r_eq,
        RingBuffer.mod_mod_cell (by decide)]
    rw [hmod]
    refine hcell.trans ?_
    simp only [hacc, List.getElem_append_right (Nat.le_add_right _ _), Nat.add_sub_cancel_left]

/-- The first process writes two bytes. -/
def writeTrace : List (CpuId × Act pipeClient) :=
  goes 0 9 ++ [(0, .call (.op (PipePc.write 2)))] ++ goes 0 5

set_option maxRecDepth 100000 in
/-- Two bytes are in the pipe. -/
theorem pipe_fifo_two : ∃ s, pipeKernel.Reachable s ∧ s.data.accepted = [1, 1] ∧
    s.data.removed = [] ∧ s.data.nwrite = 2 % 2 ^ 32 := by
  have hinit : pipeKernel.init (boot 1 1 1 pipealloc) :=
    ⟨1, 1, 1, pipealloc, pipealloc_fresh, rfl⟩
  obtain ⟨s, hs, hp⟩ := Lib.Lts.reachable_of_execs writeTrace
    (fun s : State pipeClient => decide (s.data.accepted = [1, 1] ∧ s.data.removed = []))
    hinit (by decide)
  obtain ⟨hacc, hrem⟩ := of_decide_eq_true hp
  have hw := (pipe_fifo hs).2.2.1
  rw [hacc] at hw
  exact ⟨s, hs, hacc, hrem, hw⟩

end Xv6Freezer
