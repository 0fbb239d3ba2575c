import Xv6Freezer.Kernel.Inv

/-! # What one instruction can do to a process slot

`Change s c i f q` lists every way in which the frame `f`, executing on CPU `c`, can turn the slot `i` into
`q`, with the guard under which the code does so.
-/

namespace Xv6Freezer

open Function (update)

variable {M : Client} {s s' : State M} {c c' : CpuId} {i p : Slot} {f : Frame M} {q : Proc M}

/-- The frame `f` executing on CPU `c` turns slot `i` into the given record. -/
inductive Change (s : State M) (c : CpuId) (i : Slot) : Frame M → Proc M → Prop
  | refl (f : Frame M) : Change s c i f (s.procs i)
  /-- `reparent`, and `np->parent = p` in `fork`. -/
  | parent {f : Frame M} (v : Option Slot) (hf : Lock.wait ∈ f.held) :
      Change s c i f { s.procs i with parent := v }
  /-- `wakeup`, `kill`, `sys_freeze`, `sys_unfreeze`. -/
  | visit (op : ScanOp) : Change s c i (.scan op i .visit) (visit op (s.procs i)).1
  /-- The process changes its private fields. -/
  | priv {f : Frame M} (v : Private) (hon : (s.cpus c).on = some i) :
      Change s c i f (v.apply (s.procs i))
  | setkilled {f : Frame M} (hon : (s.cpus c).on = some i) (hfree : s.locks (.proc i) = none) :
      Change s c i f { s.procs i with killed := 1 }
  | yield (hon : (s.cpus c).on = some i) :
      Change s c i (.yield i .set) { s.procs i with state := .runnable }
  /-- `sleep`, before `sched`. -/
  | sleep {ret : Frame M} {lk : Lock M} (chan : Chan) (hon : (s.cpus c).on = some i) :
      Change s c i (.sleep i chan lk .set ret)
        { s.procs i with chan := some chan, state := .sleeping }
  /-- `sleep`, after `sched`. -/
  | tidy {ret : Frame M} {lk : Lock M} {chan : Chan} (hon : (s.cpus c).on = some i) :
      Change s c i (.sleep i chan lk .tidy ret) { s.procs i with chan := none }
  | zombie (status : Int) (hon : (s.cpus c).on = some i) :
      Change s c i (.exit i status .zombie) { s.procs i with xstate := status, state := .zombie }
  | pick (found : Bool) (hf : (s.procs i).frozen = 0) (hr : (s.procs i).state = .runnable) :
      Change s c i (.scheduler (.look i found)) { s.procs i with state := .running }
  /-- `allocproc`, on an unused slot. -/
  | alloc {r : Slot} (hu : (s.procs i).state = .unused) :
      Change s c i (.fork r (.check i)) { s.procs i with pid := s.nextpid, state := .used }
  | trapframe {r : Slot} (x : Nat) :
      Change s c i (.fork r (.trapframe i)) { s.procs i with trapframe := x }
  | pagetable {r : Slot} (x : Nat) :
      Change s c i (.fork r (.pagetable i)) { s.procs i with pagetable := x }
  | context {r : Slot} :
      Change s c i (.fork r (.context i)) { s.procs i with context := [.forkret i .rel] }
  | copy {r : Slot} : Change s c i (.fork r (.copy i)) (copyParent (s.procs r) (s.procs i))
  /-- `freeproc` in a `fork` that fails. -/
  | undo {r : Slot} : Change s c i (.fork r (.undo i)) (freeproc (s.procs i))
  /-- `np->state = RUNNABLE` in `fork`. -/
  | run {r : Slot} (pid : Int) :
      Change s c i (.fork r (.run i pid)) { s.procs i with state := .runnable }
  /-- `freeproc` in `wait`. -/
  | reap {r : Slot} {addr : Nat} (hz : (s.procs i).state = .zombie) :
      Change s c i (.wait r addr (.look i)) (freeproc (s.procs i))

/-! ## Visits -/

theorem visit_state (op : ScanOp) (q : Proc M) :
    (visit op q).1.state = q.state ∨ q.state = .sleeping ∧ (visit op q).1.state = .runnable := by
  cases op <;> simp only [visit, wakeupVisit, killVisit, sysFreezeVisit, sysUnfreezeVisit] <;>
    (repeat' split) <;> simp_all

@[simp] theorem visit_context (op : ScanOp) (q : Proc M) : (visit op q).1.context = q.context := by
  cases op <;> simp only [visit, wakeupVisit, killVisit, sysFreezeVisit, sysUnfreezeVisit] <;>
    (repeat' split) <;> rfl

/-! ## Consequences -/

namespace Change

section

variable (h : Change s c i f q)

include h

theorem state_eq_or_held : q.state = (s.procs i).state ∨ Lock.proc i ∈ f.held := by
  cases h <;> simp [Frame.held, SleepPc.held, ForkPc.held, ExitPc.held, WaitPc.held,
    SchedulerPc.held, Private.apply]

theorem running_stays (hold : ∀ r pc, f = .fork r pc → pc.Holds s)
    (hr : (s.procs i).state = .running) : q.state = .running ∨ (s.cpus c).on = some i := by
  cases h
  case visit op => rcases visit_state op (s.procs i) with h | h <;> simp_all
  case undo r =>
    have := (hold r _ rfl i rfl).1
    simp_all
  case run r pid =>
    have := (hold r _ rfl i rfl).1
    simp_all
  all_goals simp_all [Private.apply, copyParent]

theorem running_of (hr : q.state = .running) :
    (s.procs i).state = .running ∨ ∃ found, f = .scheduler (.look i found) := by
  cases h
  case visit op => rcases visit_state op (s.procs i) with h | h <;> simp_all
  all_goals simp_all [Private.apply, copyParent, freeproc]

theorem used_stays (hu : (s.procs i).state = .used) (hon : (s.cpus c).on ≠ some i) :
    (q.state = .used ∧ q.context = (s.procs i).context) ∨
      ∃ r pc, f = .fork r pc ∧ pc.claims = some i := by
  cases h
  case visit op => rcases visit_state op (s.procs i) with h | h <;> simp_all
  case context r => exact .inr ⟨r, _, rfl, rfl⟩
  case undo r => exact .inr ⟨r, _, rfl, rfl⟩
  case run r pid => exact .inr ⟨r, _, rfl, rfl⟩
  all_goals simp_all [copyParent]

/-- A process that can be resumed keeps its context, or has that of a new process. -/
theorem live_of (hold : ∀ r pc, f = .fork r pc → pc.Holds s)
    (hon : (s.cpus c).on ≠ some i) (hl : q.state.Live) :
    ((s.procs i).state.Live ∧ q.context = (s.procs i).context) ∨ q.context = [.forkret i .rel] := by
  cases h
  case visit op => rcases visit_state op (s.procs i) with h | h <;> simp_all [ProcState.Live]
  case context r => exact .inr rfl
  case run r pid => exact .inr ((hold r _ rfl i rfl).2 rfl)
  all_goals simp_all [copyParent, freeproc, ProcState.Live]

theorem state_ne_frozen (hn : (s.procs i).state ≠ .frozen) : q.state ≠ .frozen := by
  cases h
  case visit op => rcases visit_state op (s.procs i) with h | h <;> simp_all
  all_goals simp_all [Private.apply, copyParent, freeproc]

end

end Change

theorem Frame.resumes_cases {f : Frame M} (h : f.resumes) :
    (∃ q, f = .yield q .rel) ∨ (∃ q chan lk ret, f = .sleep q chan lk .tidy ret) ∨
      ∃ q status, f = .exit q status .dead := by
  unfold Frame.resumes at h
  split at h
  · exact .inl ⟨_, rfl⟩
  · exact .inr (.inl ⟨_, _, _, _, rfl⟩)
  · exact .inr (.inr ⟨_, _, rfl⟩)
  · exact h.elim

theorem Frame.held_of_resumes {f : Frame M} (hok : f.Ok p) (h : f.resumes) :
    f.held = [.proc p] := by
  obtain ⟨q, rfl⟩ | ⟨q, chan, lk, ret, rfl⟩ | ⟨q, status, rfl⟩ := Frame.resumes_cases h
  · rw [show q = p from hok]; rfl
  · rw [show q = p from hok.1]; rfl
  · rw [show q = p from hok]; rfl

theorem Frame.held_of_stateIn {f : Frame M} (hok : f.Ok p) (h : f.stateIn ≠ .running) :
    Lock.proc p ∈ f.held := by
  induction f with
  | schedCheck ret =>
    have := Frame.held_of_resumes hok.1 hok.2
    simp [Frame.held, this]
  | schedSwtch q ret =>
    have := Frame.held_of_resumes hok.2.1 hok.2.2
    simp [Frame.held, this]
  | exit q status pc =>
    cases pc <;> simp_all [Frame.stateIn, Frame.Ok, Frame.held, ExitPc.held]
  | panic msg f ih => exact ih hok.1 h
  | _ => simp [Frame.stateIn] at h

theorem ProcStack.held_of_stateIn {st : List (Frame M)} (h : ProcStack p st)
    (hst : stateIn st ≠ .running) : Lock.proc p ∈ heldBy st := by
  cases st with
  | nil => exact h.elim
  | cons f rest => exact List.mem_append_left _ (Frame.held_of_stateIn h.1 hst)

theorem stateIn_ne_used (st : List (Frame M)) : stateIn st ≠ .used := by
  cases st with
  | nil => simp [stateIn]
  | cons f rest =>
    have hp : ∀ g : Frame M, g.parked ≠ .used := by intro g; cases g <;> simp [Frame.parked]
    rw [stateIn_cons]
    induction f with
    | schedCheck ret => exact hp ret
    | schedSwtch q ret => exact hp ret
    | exit q status pc => cases pc <;> simp [Frame.stateIn]
    | panic msg f ih => exact ih
    | _ => simp [Frame.stateIn]

theorem ProcStack.no_fork_below {r : Slot} {pc : ForkPc} {rest : List (Frame M)}
    (h : ProcStack p (.fork r pc :: rest)) : ∀ r' pc', Frame.fork r' pc' ∉ rest := by
  obtain ⟨-, rfl⟩ := h
  simp

theorem SchedStack.held_subset {pc : SchedulerPc} {st : List (Frame M)} (h : SchedStack pc st) :
    ∀ l ∈ (pc.held : List (Lock M)), l ∈ heldBy st := by
  induction st with
  | nil => exact h.elim
  | cons f rest ih =>
    intro l hl
    rcases h with ⟨hf, -⟩ | ⟨-, hrest, -⟩
    · cases f <;> simp_all [Frame.IsScheduler, Frame.held]
    · exact List.mem_append_right _ (ih hrest l hl)

theorem parked_forkret (i : Slot) : Parked i [(.forkret i .rel : Frame M)] :=
  ⟨⟨rfl, rfl⟩, rfl, _, _, rfl, .inr rfl⟩

theorem Parked.stateIn {st : List (Frame M)} (h : Parked p st) : stateIn st = .running := by
  obtain ⟨-, -, f, rest, rfl, hres | rfl⟩ := h
  · obtain ⟨q, rfl⟩ | ⟨q, chan, lk, ret, rfl⟩ | ⟨q, status, rfl⟩ := Frame.resumes_cases hres <;> rfl
  · rfl

theorem ProcStack.ok_of_mem {st : List (Frame M)} (h : ProcStack p st) : ∀ f ∈ st, f.Ok p := by
  induction st with
  | nil => exact h.elim
  | cons g rest ih =>
    intro f hf
    rcases List.mem_cons.mp hf with rfl | hf
    · exact h.1
    · have h2 := h.2
      cases hk : g.kind with
      | base =>
        rw [hk] at h2
        obtain rfl : rest = [] := h2
        cases hf
      | sys =>
        rw [hk] at h2
        obtain rfl : rest = [.body p] := h2
        rw [List.mem_singleton.mp hf]
        rfl
      | nested => rw [hk] at h2; exact ih h2.1 f hf

theorem StackOk.fork_holds (h : Inv s) {rest : List (Frame M)} (hf : s.stackOf c = f :: rest) :
    ∀ r pc, f = .fork r pc → pc.Holds s := by
  rintro r pc rfl
  have hst := h.stack c
  rw [hf] at hst
  unfold StackOk at hst
  cases hon : (s.cpus c).on with
  | none =>
    rw [hon] at hst
    obtain ⟨pc', hs, -, -⟩ := hst
    rcases hs with ⟨hs, -⟩ | ⟨hs, -⟩ <;> exact hs.elim
  | some p =>
    refine h.forks p r pc ?_
    rw [← State.stackOf_of_on hon, hf]
    exact .head _

end Xv6Freezer
