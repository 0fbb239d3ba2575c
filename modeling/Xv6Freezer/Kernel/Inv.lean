import Xv6Freezer.Kernel.Stack

/-! # The invariant of the process table

The locks taken are exactly those the executing stacks hold, `c->proc` and the process states agree, and a
process that does not execute has its stack saved in its context.
-/

namespace Xv6Freezer

open Function (update update_of_ne update_apply)

variable {M : Client} {s s' : State M} {c c' : CpuId} {p p' : Slot}

/-! ## Projections of the state updates -/

namespace State

section

variable (st : List (Frame M))

include st

@[simp] theorem setStack_procs : (s.setStack c st).procs = s.procs := by
  unfold setStack; split <;> rfl

@[simp] theorem setStack_locks : (s.setStack c st).locks = s.locks := by
  unfold setStack; split <;> rfl

@[simp] theorem setStack_proc : ((s.setStack c st).cpus c').proc = (s.cpus c').proc := by
  unfold setStack; split
  · simp only [update_apply]; split <;> simp_all
  · rfl

@[simp] theorem setStack_on : ((s.setStack c st).cpus c').on = (s.cpus c').on := by
  unfold setStack; split
  · simp only [update_apply]; split <;> simp_all
  · rfl

@[simp] theorem setStack_noff : ((s.setStack c st).cpus c').noff = (s.cpus c').noff := by
  unfold setStack; split
  · simp only [update_apply]; split <;> simp_all
  · rfl

@[simp] theorem setStack_context : ((s.setStack c st).cpus c').context = (s.cpus c').context := by
  unfold setStack; split
  · simp only [update_apply]; split <;> simp_all
  · rfl

@[simp] theorem stackOf_setStack : (s.setStack c st).stackOf c = st := by
  unfold stackOf setStack
  split <;> rename_i h <;> simp_all
  all_goals split at h <;> simp_all

theorem stackOf_setStack_of_ne (hc : c' ≠ c)
    (hon : ∀ p, (s.cpus c).on = some p → (s.cpus c').on ≠ some p) :
    (s.setStack c st).stackOf c' = s.stackOf c' := by
  unfold stackOf setStack
  cases h : (s.cpus c).on with
  | none => simp [update_of_ne hc]
  | some p =>
    have := hon p h
    cases h' : (s.cpus c').on with
    | none => simp
    | some p' =>
      have hne : p' ≠ p := fun e => this (by rw [h', e])
      simp [update_of_ne hne]

theorem setStack_kst_of_ne (h : (s.cpus c).on ≠ some p) : (s.setStack c st).kst p = s.kst p := by
  unfold setStack
  cases hon : (s.cpus c).on with
  | none => rfl
  | some q =>
    have hne : p ≠ q := fun e => h (by rw [hon, e])
    simp [update_of_ne hne]

theorem setStack_kst_of_eq (h : (s.cpus c).on = some p) : (s.setStack c st).kst p = st := by
  simp [setStack, h]

end

@[simp] theorem setNoff_on (n : Nat) : ((s.setNoff c n).cpus c').on = (s.cpus c').on := by
  simp only [setNoff, setCpu, update_apply]; split <;> simp_all

@[simp] theorem setNoff_proc (n : Nat) : ((s.setNoff c n).cpus c').proc = (s.cpus c').proc := by
  simp only [setNoff, setCpu, update_apply]; split <;> simp_all

@[simp] theorem setNoff_context (n : Nat) :
    ((s.setNoff c n).cpus c').context = (s.cpus c').context := by
  simp only [setNoff, setCpu, update_apply]; split <;> simp_all

@[simp] theorem setNoff_stack (n : Nat) : ((s.setNoff c n).cpus c').stack = (s.cpus c').stack := by
  simp only [setNoff, setCpu, update_apply]; split <;> simp_all

@[simp] theorem setNoff_noff_self (n : Nat) : ((s.setNoff c n).cpus c).noff = n := by
  simp [setNoff, setCpu]

theorem setNoff_noff_of_ne (n : Nat) (h : c' ≠ c) :
    ((s.setNoff c n).cpus c').noff = (s.cpus c').noff := by
  simp [setNoff, setCpu, update_of_ne h]

@[simp] theorem setNoff_procs (n : Nat) : (s.setNoff c n).procs = s.procs := rfl

@[simp] theorem setNoff_kst (n : Nat) : (s.setNoff c n).kst = s.kst := rfl

@[simp] theorem setNoff_locks (n : Nat) : (s.setNoff c n).locks = s.locks := rfl

section

variable (l : Lock M) (x : Option CpuId)

include l x

@[simp] theorem setLock_procs : (s.setLock l x).procs = s.procs := rfl

@[simp] theorem setLock_cpus : (s.setLock l x).cpus = s.cpus := rfl

@[simp] theorem setLock_kst : (s.setLock l x).kst = s.kst := rfl

@[simp] theorem setLock_locks : (s.setLock l x).locks = update s.locks l x := rfl

@[simp] theorem setLock_stackOf : (s.setLock l x).stackOf c = s.stackOf c := rfl

end

@[simp] theorem setNoff_stackOf (n : Nat) : (s.setNoff c n).stackOf c' = s.stackOf c' := by
  simp [stackOf]

theorem stackOf_of_on (h : (s.cpus c).on = some p) : s.stackOf c = s.kst p := by simp [stackOf, h]

end State

/-! ## The invariant -/

/-- What holds of the process table while `scheduler` is at a program point. -/
def SchedulerPc.Holds (s : State M) : SchedulerPc → Prop
  | .pick i => (s.procs i).state = .running ∧ ∀ c, (s.cpus c).proc ≠ some i
  | .swtch i => (s.procs i).state = .running
  | .back i => (s.procs i).state ≠ .running
  | _ => True

/-- What `fork` relies on at a program point: its slot is `USED`, and the context starts at `forkret` once it
is set. -/
def ForkPc.Holds (s : State M) (pc : ForkPc) : Prop :=
  ∀ i, pc.claims = some i → (s.procs i).state = .used ∧
    (pc.built = true → (s.procs i).context = [.forkret i .rel])

/-- `st` is a stack that CPU `c` may execute on in the state `s`. -/
def StackOk (s : State M) (c : CpuId) (st : List (Frame M)) : Prop :=
  match (s.cpus c).on with
  | none => ∃ pc, SchedStack pc st ∧ (s.cpus c).proc = pc.cur ∧ pc.Holds s
  | some p => ProcStack p st ∧ (s.procs p).state = stateIn st

/-- The states of a process that has run, or may run next. -/
def ProcState.Live (x : ProcState) : Prop :=
  x = .runnable ∨ x = .sleeping ∨ x = .running ∨ x = .zombie

/-- A stack of `p` that can be resumed with `p->lock` held: in `sched`, or at `forkret`. -/
def Parked (p : Slot) (st : List (Frame M)) : Prop :=
  ProcStack p st ∧ heldBy st = [.proc p] ∧
    ∃ f rest, st = f :: rest ∧ (f.resumes ∨ f = .forkret p .rel)

structure LockInv (s : State M) : Prop where
  /-- A lock is taken by CPU `c` iff the stack `c` executes on holds it. -/
  locks : ∀ c l, s.locks l = some c ↔ l ∈ heldBy (s.stackOf c)
  nodup : ∀ c, (heldBy (s.stackOf c)).Nodup
  /-- `noff` counts the locks held. -/
  noff : ∀ c, (s.cpus c).noff = (heldBy (s.stackOf c)).length

structure Inv (s : State M) : Prop extends LockInv s where
  stack : ∀ c, StackOk s c (s.stackOf c)
  /-- A CPU on a kernel stack has that process current, and its scheduler waits in `swtch`. -/
  busy : ∀ c p, (s.cpus c).on = some p →
    (s.cpus c).proc = some p ∧ (s.cpus c).context = [.scheduler (.back p)]
  uniq : ∀ c c' p, (s.cpus c).proc = some p → (s.cpus c').proc = some p → c = c'
  /-- A current process is `RUNNING`, or its CPU holds its lock. -/
  occ : ∀ c p, (s.cpus c).proc = some p →
    (s.procs p).state = .running ∨ s.locks (.proc p) = some c
  /-- A `RUNNING` process is current, or about to be. -/
  run : ∀ p, (s.procs p).state = .running → (∃ c, (s.cpus c).proc = some p) ∨
    ∃ c, (s.cpus c).on = none ∧ s.stackOf c = [.scheduler (.pick p)]
  /-- A process that does not execute has its stack saved. -/
  saved : ∀ p, (∀ c, (s.cpus c).on ≠ some p) → (s.procs p).state.Live →
    Parked p (s.procs p).context ∧
      ((s.procs p).context = s.kst p ∨ (s.procs p).context = [.forkret p .rel])
  /-- Every `fork` under way has what its program point needs. -/
  forks : ∀ q r pc, .fork r pc ∈ s.kst q → pc.Holds s
  claims : ∀ q q' r r' pc pc' i, .fork r pc ∈ s.kst q → .fork r' pc' ∈ s.kst q' →
    pc.claims = some i → pc'.claims = some i → q = q'
  /-- The constant `FROZEN` is never stored. -/
  notFrozen : ∀ p, (s.procs p).state ≠ .frozen

namespace LockInv

theorem not_mem_of_ne (h : LockInv s) {l : Lock M} (hl : l ∈ heldBy (s.stackOf c)) (hc : c' ≠ c) :
    l ∉ heldBy (s.stackOf c') := by
  intro hl'
  have e := ((h.locks c' l).mpr hl').symm.trans ((h.locks c l).mpr hl)
  exact hc (Option.some.inj e)

theorem acquire (h : LockInv s) {l : Lock M} (hl : s.locks l = none)
    (hlocks : s'.locks = update s.locks l (some c))
    (hoth : ∀ c', c' ≠ c → s'.stackOf c' = s.stackOf c' ∧ (s'.cpus c').noff = (s.cpus c').noff)
    (hnoff : (s'.cpus c).noff = (s.cpus c).noff + 1)
    (hheld : (heldBy (s'.stackOf c)).Perm (l :: heldBy (s.stackOf c))) : LockInv s' := by
  have hnot : ∀ c', l ∉ heldBy (s.stackOf c') := fun c' hm => by
    simp [(h.locks c' l).mpr hm] at hl
  refine ⟨fun c' l' => ?_, fun c' => ?_, fun c' => ?_⟩
  · rw [hlocks]
    by_cases hc : c' = c
    · subst hc
      rw [hheld.mem_iff, List.mem_cons]
      by_cases hll : l' = l
      · simp [hll]
      · simp [hll, h.locks]
    · rw [(hoth c' hc).1]
      by_cases hll : l' = l
      · subst hll
        simp [Ne.symm hc, hnot c']
      · rw [update_of_ne hll, h.locks]
  · by_cases hc : c' = c
    · subst hc
      exact hheld.nodup_iff.mpr (List.nodup_cons.mpr ⟨hnot _, h.nodup _⟩)
    · rw [(hoth c' hc).1]; exact h.nodup c'
  · by_cases hc : c' = c
    · subst hc
      rw [hnoff, hheld.length_eq, List.length_cons, h.noff]
    · rw [(hoth c' hc).1, (hoth c' hc).2]; exact h.noff c'

theorem release (h : LockInv s) {l : Lock M} (hlocks : s'.locks = update s.locks l none)
    (hoth : ∀ c', c' ≠ c → s'.stackOf c' = s.stackOf c' ∧ (s'.cpus c').noff = (s.cpus c').noff)
    (hnoff : (s'.cpus c).noff = (s.cpus c).noff - 1)
    (hheld : (heldBy (s.stackOf c)).Perm (l :: heldBy (s'.stackOf c))) : LockInv s' := by
  have hmem : l ∈ heldBy (s.stackOf c) := hheld.mem_iff.mpr (.head _)
  have hnd := List.nodup_cons.mp (hheld.nodup_iff.mp (h.nodup c))
  refine ⟨fun c' l' => ?_, fun c' => ?_, fun c' => ?_⟩
  · rw [hlocks]
    by_cases hll : l' = l
    · subst hll
      by_cases hc : c' = c
      · subst hc; simp [hnd.1]
      · rw [(hoth c' hc).1]; simp [h.not_mem_of_ne hmem hc]
    · rw [update_of_ne hll, h.locks]
      by_cases hc : c' = c
      · subst hc; rw [hheld.mem_iff]; simp [hll]
      · rw [(hoth c' hc).1]
  · by_cases hc : c' = c
    · subst hc; exact hnd.2
    · rw [(hoth c' hc).1]; exact h.nodup c'
  · by_cases hc : c' = c
    · subst hc
      rw [hnoff, h.noff, hheld.length_eq, List.length_cons, Nat.add_sub_cancel]
    · rw [(hoth c' hc).1, (hoth c' hc).2]; exact h.noff c'

theorem same (h : LockInv s) (hlocks : s'.locks = s.locks)
    (hheld : ∀ c, (heldBy (s'.stackOf c)).Perm (heldBy (s.stackOf c)))
    (hnoff : ∀ c, (s'.cpus c).noff = (s.cpus c).noff) : LockInv s' := by
  refine ⟨fun c l => ?_, fun c => ?_, fun c => ?_⟩
  · rw [hlocks, h.locks, (hheld c).mem_iff]
  · exact (hheld c).nodup_iff.mpr (h.nodup c)
  · rw [hnoff, h.noff, (hheld c).length_eq]

end LockInv

end Xv6Freezer
