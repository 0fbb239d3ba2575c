import Xv6Freezer.Kernel.Assert
import Xv6Freezer.Kernel.Wakeup
import Xv6Freezer.Pipe.Basic

/-! # Processes that wait at a pipe

Readers sleep on `&pi->nread`, writers on `&pi->nwrite`. Writers are always woken. Readers are not: a
`pipewrite` that has stored bytes and then finds itself killed returns without `wakeup(&pi->nread)`.
-/

namespace Xv6Freezer

variable {s : State pipeClient} {c : CpuId} {p : Slot} {d : Pipe} {f : PipePc} {self : Option Slot}

/-! ## What the code knows -/

def Pipe.canRead (d : Pipe) : Bool := !d.isEmpty || !d.writeopen

def Pipe.canWrite (d : Pipe) : Bool := !d.isFull || !d.readopen

/-- What has been tested before a program point, under the lock. -/
def pipeHolds (f : PipePc) (d : Pipe) : Prop :=
  match f with
  | .writeBody _ _ _ => d.readopen = true
  | .writeSleep _ _ => d.canWrite = false
  | .readSleep _ => d.canRead = false
  | _ => True

theorem readLoop_asserts {n : Int} {i : Nat} (hf : pipeHeld f = [()]) :
    (readLoop n i d).Asserts pipeHeld () pipeHolds f d := by
  unfold readLoop
  split
  · exact ⟨hf ▸ List.mem_singleton_self (), trivial⟩
  · trivial

theorem pipeCode_asserts {x : Nat} (h : pipeHolds f d) :
    (pipeCode f d x).Asserts pipeHeld () pipeHolds f d := by
  cases f with
  | writeTest n i new =>
    simp only [pipeCode]
    split
    · split
      · trivial
      · rename_i hopen
        intro b
        cases b with
        | true => trivial
        | false => exact Bool.eq_true_of_not_eq_false hopen
    · trivial
  | writeBody n i new =>
    simp only [pipeCode]
    split
    · rename_i hfull
      show d.canWrite = false
      rw [Pipe.canWrite, hfull, show d.readopen = true from h]
      rfl
    · split
      · exact ⟨List.mem_singleton_self (), trivial⟩
      · trivial
  | readWait n =>
    simp only [pipeCode]
    split
    · rename_i hwait
      intro b
      cases b with
      | true => trivial
      | false =>
        show d.canRead = false
        rw [Pipe.canRead, hwait.1, hwait.2]
        rfl
    · exact readLoop_asserts rfl
  | readCopy n i =>
    simp only [pipeCode]
    split
    · trivial
    · exact readLoop_asserts rfl
  | fileclose writable =>
    simp only [pipeCode]
    split <;> trivial
  | closeSet writable => exact ⟨List.mem_singleton_self (), trivial⟩
  | _ => trivial

def pipeAssertion : Assertion pipeClient where
  lk := ()
  holds := pipeHolds
  free f d h := by
    cases f with
    | writeBody | writeSleep | readSleep => exact absurd (List.mem_singleton_self ()) h
    | _ => trivial
  code f _ _ d x h := pipeCode_asserts h
  sleep f _ _ d x n l k h d' := by
    have hloop : ∀ {n i m}, readLoop n i d ≠ .sleep m l k := by
      intro n i m e
      unfold readLoop at e
      split at e <;> cases e
    change pipeCode f d x = .sleep n l k at h
    cases f with
    | writeTest | writeBody =>
      simp only [pipeCode] at h
      (repeat' split at h) <;> cases h
    | readWait | readCopy =>
      simp only [pipeCode] at h
      split at h
      · cases h
      · exact absurd h hloop
    | fileclose writable =>
      simp only [pipeCode] at h
      split at h <;> cases h
    | _ => cases h <;> trivial

/-! ## Writers -/

/-- There is room, or no read end, and the writers have not been woken yet. -/
def roomMade : PipePc → Bool
  | .readCopy _ _ => true
  | .closeWake writable => !writable
  | _ => false

def writers : Waiting pipeClient where
  lk := ()
  chan := chanNwrite
  cond _ _ d := d.canWrite
  dirty := roomMade
  dirty_held f h := by
    cases f with
    | readCopy | closeWake => exact List.mem_singleton_self ()
    | _ => cases h

/-- The discipline that wakes the writers. -/
abbrev WakesWriters (f : PipePc) (self : Option Slot) (d : Pipe) (st : Stmt PipePc Pipe Unit) :
    Prop :=
  st.Monitored () chanNwrite (fun _ _ d => d.canWrite) roomMade f self d

theorem readLoop_wakesWriters {n : Int} {i : Nat} : WakesWriters f self d (readLoop n i d) := by
  unfold readLoop
  split
  · exact ⟨fun _ => rfl, fun _ => rfl⟩
  · exact .inl rfl

theorem pipeCode_wakesWriters {x : Nat} (h : pipeHolds f d) :
    WakesWriters f self d (pipeCode f d x) := by
  cases f with
  | writeTest n i new =>
    simp only [pipeCode]
    split
    · split
      · exact ⟨fun _ => rfl, nofun⟩
      · exact nofun
    · exact .inr nofun
  | writeBody n i new =>
    simp only [pipeCode]
    split
    · exact .inr nofun
    · rename_i hroom
      split
      · -- a store makes no room: there was room before
        refine ⟨nofun, fun ⟨_, _, hno, _⟩ => ?_⟩
        simp [Pipe.canWrite, hroom] at hno
      · exact .inr nofun
  | writeSleep n i => exact ⟨rfl, fun _ => ⟨rfl, fun _ _ => h⟩⟩
  | readWait n =>
    simp only [pipeCode]
    split
    · exact nofun
    · exact readLoop_wakesWriters
  | readSleep n => exact ⟨rfl, nofun⟩
  | readCopy n i =>
    simp only [pipeCode]
    split
    · exact .inl rfl
    · exact readLoop_wakesWriters
  | closeSet writable =>
    refine ⟨nofun, fun ⟨_, _, hno, hyes⟩ => ?_⟩
    cases writable with
    | false => rfl
    | true =>
      -- closing the write end changes neither the buffer nor `readopen`
      have hsame : (d.close true).canWrite = d.canWrite := rfl
      exact absurd (hyes.symm.trans (hsame.trans hno)) Bool.noConfusion
  | closeWake writable =>
    cases writable with
    | false => exact .inl rfl
    | true => exact .inr nofun
  | fileclose writable =>
    simp only [pipeCode]
    split
    · trivial
    · exact nofun
  | write | read | close => exact nofun
  | writeFail | writeRel | readRel | closeRel => exact ⟨fun _ => rfl, nofun⟩
  | done => trivial

/-! ## Readers -/

/-- There are bytes, or no write end, and the readers have not been woken yet. -/
def bytesStored : PipePc → Bool
  | .writeTest _ _ new | .writeFail new | .writeBody _ _ new => new
  | .closeWake writable => writable
  | _ => false

def readers : Waiting pipeClient where
  lk := ()
  chan := chanNread
  cond _ _ d := d.canRead
  dirty := bytesStored
  dirty_held f h := by
    cases f with
    | writeTest | writeFail | writeBody | closeWake => exact List.mem_singleton_self ()
    | _ => cases h

/-- `pipewrite` returns and has not told the readers of the bytes it has stored. -/
def returnsSilently (f : PipePc) (d : Pipe) : Bool :=
  match f with
  | .writeFail new => new
  | .writeTest n i new => new && decide ((i : Int) < n) && !d.readopen
  | _ => false

/-- The discipline that wakes the readers. -/
abbrev WakesReaders (f : PipePc) (self : Option Slot) (d : Pipe) (st : Stmt PipePc Pipe Unit) :
    Prop :=
  st.Monitored () chanNread (fun _ _ d => d.canRead) bytesStored f self d

theorem readLoop_wakesReaders {n : Int} {i : Nat} (hf : bytesStored f = false) :
    WakesReaders f self d (readLoop n i d) := by
  unfold readLoop
  split
  · rename_i hne
    refine ⟨fun h => ?_, fun ⟨_, _, hno, _⟩ => ?_⟩
    · rw [hf] at h
      cases h
    · simp [Pipe.canRead, hne.2] at hno
  · refine .inr fun h => ?_
    rw [hf] at h
    cases h

theorem pipeCode_wakesReaders {x : Nat} (h : pipeHolds f d) (hret : returnsSilently f d = false) :
    WakesReaders f self d (pipeCode f d x) := by
  cases f with
  | writeTest n i new =>
    simp only [pipeCode]
    split
    · rename_i hlt
      split
      · rename_i hclosed
        obtain rfl : new = false := by simpa [returnsSilently, hlt, hclosed] using hret
        exact ⟨fun _ => rfl, nofun⟩
      · intro hnew b
        cases b <;> exact hnew
    · exact .inl rfl
  | writeBody n i new =>
    simp only [pipeCode]
    split
    · exact .inl rfl
    · split
      · exact ⟨fun _ => rfl, fun _ => rfl⟩
      · exact .inl rfl
  | writeSleep n i => exact ⟨rfl, nofun⟩
  | readWait n =>
    simp only [pipeCode]
    split
    · exact nofun
    · exact readLoop_wakesReaders rfl
  | readSleep n => exact ⟨rfl, fun _ => ⟨rfl, fun _ _ => h⟩⟩
  | readCopy n i =>
    simp only [pipeCode]
    split
    · exact .inr nofun
    · exact readLoop_wakesReaders rfl
  | closeSet writable =>
    refine ⟨nofun, fun ⟨_, _, hno, hyes⟩ => ?_⟩
    cases writable with
    | true => rfl
    | false =>
      have hsame : (d.close false).canRead = d.canRead := rfl
      exact absurd (hyes.symm.trans (hsame.trans hno)) Bool.noConfusion
  | closeWake writable =>
    cases writable with
    | true => exact .inl rfl
    | false => exact .inr nofun
  | fileclose writable =>
    simp only [pipeCode]
    split
    · trivial
    · exact nofun
  | write | read | close => exact nofun
  | writeFail new =>
    obtain rfl : new = false := hret
    exact ⟨fun _ => rfl, nofun⟩
  | writeRel | readRel | closeRel => exact ⟨fun _ => rfl, nofun⟩
  | done => trivial

/-- The step is no silent return of `pipewrite`. -/
def announces (s : State pipeClient) (a : CpuId × Act pipeClient) : Bool :=
  match s.stackOf a.1, a.2 with
  | .client f :: _, .go _ => !returnsSilently f s.data
  | _, _ => true

theorem writers_follows {a : CpuId × Act pipeClient} (h : pipeKernel.Reachable s) :
    writers.Follows s a := by
  unfold Waiting.Follows
  split
  · rename_i f rest x hf ha
    exact pipeCode_wakesWriters (pipeAssertion.holds_of_top h hf)
  · trivial

theorem readers_follows {a : CpuId × Act pipeClient} (h : pipeKernel.Reachable s)
    (ha : announces s a = true) : readers.Follows s a := by
  unfold Waiting.Follows
  split
  · rename_i f rest x hf hx
    refine pipeCode_wakesReaders (pipeAssertion.holds_of_top h hf) ?_
    simpa only [announces, hf, hx, Bool.not_eq_true'] using ha
  · trivial

theorem writer_blocked (h : pipeKernel.Reachable s) (hfree : s.locks (.client ()) = none)
    (hp : p < NPROC) (hsl : (s.procs p).state = .sleeping)
    (hchan : (s.procs p).chan = some (.addr chanNwrite)) : s.data.canWrite = false := by
  obtain ⟨k, -, hk⟩ := cond_of_sleeping (m := writers) h (fun t a ht _ => writers_follows ht) hfree
    hp hsl hchan
  exact hk

/-- **No reader is left asleep** in a run without silent returns. -/
theorem reader_blocked (h : pipeKernel.ReachableIf (fun s a => announces s a = true) s)
    (hfree : s.locks (.client ()) = none) (hp : p < NPROC) (hsl : (s.procs p).state = .sleeping)
    (hchan : (s.procs p).chan = some (.addr chanNread)) : s.data.canRead = false := by
  obtain ⟨k, -, hk⟩ := cond_of_sleeping (m := readers) h
    (fun t a ht ha => readers_follows ht.reachable ha) hfree hp hsl hchan
  exact hk

/-- One process sleeps in `piperead`, another stores a byte and is then killed by the third. -/
def silentTrace : List (CpuId × Act pipeClient) :=
  goes 0 9 ++ [(0, .call .fork)] ++ goes 0 16 ++ goes 1 10 ++ [(0, .call .fork)] ++ goes 0 19 ++
    goes 2 13 ++ [(2, .call (.op (PipePc.read 1)))] ++ goes 2 8 ++
    [(1, .call (.op (PipePc.write 2)))] ++ goes 1 3 ++ [(0, .call (.kill 2))] ++ goes 0 6 ++ goes 1 2

set_option maxRecDepth 100000 in
/-- A killed `pipewrite` leaves a reader `SLEEPING` with a byte in the buffer. -/
theorem killed_pipewrite_leaves_reader : ∃ s, pipeKernel.Reachable s ∧
    s.locks (.client ()) = none ∧ (s.procs 2).state = .sleeping ∧
    (s.procs 2).chan = some (.addr chanNread) ∧ s.data.isEmpty = false := by
  have hinit : pipeKernel.init (boot 1 1 1 pipealloc) :=
    ⟨1, 1, 1, pipealloc, pipealloc_fresh, rfl⟩
  obtain ⟨s, hs, hp⟩ := Lib.Lts.reachable_of_execs silentTrace
    (fun s : State pipeClient => decide (s.locks (.client ()) = none ∧
      (s.procs 2).state = .sleeping ∧ (s.procs 2).chan = some (.addr chanNread) ∧
      s.data.isEmpty = false)) hinit (by decide)
  exact ⟨s, hs, of_decide_eq_true hp⟩

/-- **No peer of a pipe is stuck** if no `pipewrite` returns with bytes that it has not announced: while
`pi->lock` is free, who is `SLEEPING` on `&pi->nread` sees an empty buffer and an open write end, on
`&pi->nwrite` a full buffer and an open read end. -/
theorem pipe_no_stuck_peer (h : pipeKernel.ReachableIf (fun s a => announces s a = true) s)
    (hfree : s.locks (.client ()) = none) (hp : p < NPROC) (hsl : (s.procs p).state = .sleeping) :
    ((s.procs p).chan = some (.addr chanNread) →
      s.data.isEmpty = true ∧ s.data.writeopen = true) ∧
    ((s.procs p).chan = some (.addr chanNwrite) →
      s.data.isFull = true ∧ s.data.readopen = true) := by
  refine ⟨fun hchan => ?_, fun hchan => ?_⟩
  · simpa [Pipe.canRead] using reader_blocked h hfree hp hsl hchan
  · simpa [Pipe.canWrite] using writer_blocked h.reachable hfree hp hsl hchan

/-- The first process reads from the empty pipe. -/
def readerTrace : List (CpuId × Act pipeClient) :=
  goes 0 9 ++ [(0, .call (.op (PipePc.read 1)))] ++ goes 0 6

set_option maxRecDepth 100000 in
/-- A reader sleeps at the empty pipe. -/
theorem pipe_no_stuck_peer_reader :
    ∃ s, pipeKernel.ReachableIf (fun s a => announces s a = true) s ∧
      s.locks (.client ()) = none ∧ (s.procs 0).state = .sleeping ∧
      (s.procs 0).chan = some (.addr chanNread) ∧ s.data.isEmpty = true := by
  have hinit : pipeKernel.init (boot 1 1 1 pipealloc) :=
    ⟨1, 1, 1, pipealloc, pipealloc_fresh, rfl⟩
  obtain ⟨s, hs, hp⟩ := Lib.Lts.reachableIf_of_execs readerTrace announces
    (fun s : State pipeClient => decide (s.locks (.client ()) = none ∧
      (s.procs 0).state = .sleeping ∧ (s.procs 0).chan = some (.addr chanNread)))
    hinit (by decide)
  obtain ⟨hfree, hsl, hchan⟩ := of_decide_eq_true hp
  exact ⟨s, hs, hfree, hsl, hchan,
    ((pipe_no_stuck_peer hs hfree (by decide) hsl).1 hchan).1⟩

end Xv6Freezer
