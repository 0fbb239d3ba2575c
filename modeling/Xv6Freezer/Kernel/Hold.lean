import Xv6Freezer.Kernel.Sleep

/-! # Processes that stop while they hold something

A process that holds a sleep-lock or a place among the file-system operations cannot give it back while it is
frozen and not `RUNNING`. Two steps lead there: a `sys_freeze` of a process that holds something and is not
`RUNNING`, and a frozen process that gives up the CPU.
-/

namespace Xv6Freezer

variable {M : Client} {init : M.Data → Prop} {s s' : State M} {c : CpuId} {p : Slot}
  {f : Frame M} {q : Proc M} {rest : List (Frame M)} {a : Act M}

/-! ## Giving up the CPU -/

/-- The process that stops being `RUNNING` in the next instruction of the frame. -/
def Frame.stops : Frame M → Option Slot
  | .yield p .set => some p
  | .sleep p _ _ .set _ => some p
  | .exit p _ .zombie => some p
  | _ => none

/-- The process that stops being `RUNNING` in a step. -/
def stopping (s : State M) (a : CpuId × Act M) : Option Slot :=
  match s.stackOf a.1, a.2 with
  | f :: _, .go _ => f.stops
  | _, _ => none

theorem Change.stops_of_running {i : Slot} (h : Change s c i f q)
    (hold : ∀ r pc, f = .fork r pc → pc.Holds s) (hr : (s.procs i).state = .running)
    (hq : q.state ≠ .running) : f.stops = some i := by
  cases h with
  | yield | sleep | zombie => rfl
  | visit op => rcases visit_state op (s.procs i) with e | ⟨e, -⟩ <;> simp_all
  | undo | run =>
    have hu := (hold _ _ rfl i rfl).1
    simp [hr] at hu
  | reap hz => simp [hr] at hz
  | alloc hu => simp [hr] at hu
  | pick found hz hrn => exact absurd rfl hq
  | _ => exact absurd hr hq

theorem Frame.held_of_stops (h : f.stops = some p) : Lock.proc p ∈ f.held := by
  unfold Frame.stops at h
  split at h <;> cases h <;> simp [Frame.held, SleepPc.held, ExitPc.held]

theorem kstep_running (h : Inv s) (hs : kstep s c a = some s')
    (hr : (s.procs p).state = .running) (hr' : (s'.procs p).state ≠ .running) :
    stopping s (c, a) = some p := by
  obtain ⟨f, rest, hf, hstep⟩ := kstep_stepped h hs
  rcases hstep.slot h hf p with hchg | ⟨-, ret, -, e⟩
  · have hstop := hchg.stops_of_running (StackOk.fork_holds h hf) hr hr'
    have hne : f.held ≠ [] := List.ne_nil_of_mem (Frame.held_of_stops hstop)
    obtain ⟨x, rfl, -⟩ := go_of_held h hf hne hs
    simpa [stopping, hf] using hstop
  · rw [e] at hr'
    exact absurd hr hr'

theorem kstep_of_stopping (hs : kstep s c a = some s') (hstop : stopping s (c, a) = some p) :
    (s'.procs p).state ≠ .running ∧ (s'.procs p).frozen = (s.procs p).frozen ∧
      s'.data = s.data := by
  unfold stopping at hstop
  split at hstop
  · rename_i f rest x hf ha
    simp only at hf ha
    subst ha
    simp only [kstep, hf] at hs
    unfold Frame.stops at hstop
    split at hstop <;> cases hstop <;>
      (cases hs; simp [State.apply, State.setProc])
  · cases hstop

theorem kstep_of_freezes {pid : Int} (hs : kstep s c a = some s')
    (he : event s (c, a) = .freezes p pid) :
    (s'.procs p).state = (s.procs p).state ∧ (s'.procs p).frozen ≠ 0 ∧ s'.data = s.data := by
  unfold event at he
  split at he
  · rename_i f rest x hf ha
    simp only at hf ha
    subst ha
    simp only [kstep, hf] at hs
    unfold frameEvent at he
    split at he <;> try (split at he <;> cases he)
    · rename_i hok
      cases hs
      simp only [sysFreezeVisit] at hok
      split at hok
      · split at hok
        · rename_i hpid hg
          simp [State.apply, State.setProc, visit, sysFreezeVisit, hpid, hg]
        · cases hok
      · cases hok
    · cases he
  · cases he

/-! ## Holding -/

/-- What a process may hold, and comes to hold only by its own steps. -/
structure Holding (M : Client) where
  holds : M.Data → Slot → Prop
  own : ∀ f self pid d x d' k p, M.code f self pid d x = .update d' k → holds d' p →
    holds d p ∨ self = some p

variable (H : Holding M)

/-- No process that is frozen and not `RUNNING` holds anything. -/
def StoppedFree (s : State M) : Prop :=
  ∀ p, (s.procs p).frozen ≠ 0 → (s.procs p).state ≠ .running → ¬ H.holds s.data p

/-- The step neither freezes nor takes off the CPU, frozen, a process that holds something. -/
def SafeStop (s : State M) (a : CpuId × Act M) : Prop :=
  (∀ p pid, event s a = .freezes p pid → (s.procs p).state = .running ∨ ¬ H.holds s.data p) ∧
  ∀ p, stopping s a = some p → (s.procs p).frozen ≠ 0 → ¬ H.holds s.data p

variable {H}

theorem kstep_holds (h : Inv s) (hs : kstep s c a = some s') (hh : H.holds s'.data p) :
    H.holds s.data p ∨ (s'.procs p).state = .running := by
  obtain ⟨f, rest, hf, -⟩ := kstep_stepped h hs
  rcases kstep_data hs hf with e | ⟨x, g, d, k, rfl, rfl, hc, rfl, -⟩
  · rw [e] at hh
    exact .inl hh
  · refine (H.own _ _ _ _ _ _ _ p hc hh).imp_right fun hp => ?_
    have hon := h.on_of_current hf (fun _ => id) hp
    have hr : (s.procs p).state = .running := ((h.stack_cons hf).ok hon).2
    -- code outside `proc.c` does not write the slot
    by_contra hr'
    have := kstep_running h hs hr hr'
    simp [stopping, hf, Frame.stops] at this

theorem kstep_stoppedFree (h : Inv s) (hfree : StoppedFree H s) (hs : kstep s c a = some s') :
    StoppedFree H s' ↔ SafeStop H s (c, a) := by
  constructor
  · intro hfree'
    refine ⟨fun p pid he => ?_, fun p hstop hz => ?_⟩
    · obtain ⟨hst, hz, hd⟩ := kstep_of_freezes hs he
      by_cases hr : (s.procs p).state = .running
      · exact .inl hr
      · rw [← hd]
        exact .inr (hfree' p hz (hst ▸ hr))
    · obtain ⟨hst, hfz, hd⟩ := kstep_of_stopping hs hstop
      rw [← hd]
      exact hfree' p (hfz ▸ hz) hst
  · rintro ⟨hsf, hst⟩ p hz hr hh
    have hold := (kstep_holds h hs hh).resolve_right hr
    by_cases hz0 : (s.procs p).frozen = 0
    · -- the flag was set in this step
      have he : event s (c, a) = .freezes p (s.procs p).pid := by
        rcases kstep_frozen h hs p with e | ⟨he, -⟩ | ⟨-, hne⟩
        · exact absurd (e.trans hz0) hz
        · exact he
        · exact absurd hz0 hne
      rcases hsf p _ he with hrun | hno
      · exact hr ((kstep_of_freezes hs he).1.trans hrun)
      · exact hno hold
    · -- the process was frozen, so it was `RUNNING` and has stopped
      have hrun : (s.procs p).state = .running := by
        by_contra hrun
        exact hfree p hz0 hrun hold
      exact hst p (kstep_running h hs hrun hr) hz0 hold

theorem boot_stoppedFree (tf pt cwd : Nat) (d : M.Data) : StoppedFree H (boot tf pt cwd d) := by
  intro p hz
  by_cases hp : p = 0
  · subst hp; simp [boot, userinit, procinit] at hz
  · simp [boot, hp, procinit] at hz

/-- **In a run of safe steps no frozen process that is not `RUNNING` holds anything.** -/
theorem reachableIf_stoppedFree (h : (kernel M init).ReachableIf (SafeStop H) s) :
    StoppedFree H s := by
  have hall : Inv s ∧ StoppedFree H s := by
    refine h.invariant (I := fun t => Inv t ∧ StoppedFree H t) (fun t ht => ?_) ?_
    · obtain ⟨tf, pt, cwd, d, -, rfl⟩ := ht
      exact ⟨boot_inv tf pt cwd d, boot_stoppedFree tf pt cwd d⟩
    · rintro t ⟨c, a⟩ t' ⟨hi, hf⟩ ha hs
      exact ⟨kstep_inv hi hs, (kstep_stoppedFree hi hf hs).mpr ha⟩
  exact hall.2

theorem reachable_data {I : M.Data → Prop} (h : (kernel M init).Reachable s)
    (h0 : ∀ d, init d → I d)
    (hupd : ∀ f self pid d x d' k, M.code f self pid d x = .update d' k → I d → I d') :
    I s.data := by
  have hall : Inv s ∧ I s.data := by
    refine h.invariant (I := fun t => Inv t ∧ I t.data) (fun t ht => ?_) ?_
    · obtain ⟨tf, pt, cwd, d, hd, rfl⟩ := ht
      exact ⟨boot_inv tf pt cwd d, h0 d hd⟩
    · rintro t ⟨c, a⟩ t' ⟨hi, hd⟩ - hs
      refine ⟨kstep_inv hi hs, ?_⟩
      obtain ⟨f, rest, hf, -⟩ := kstep_stepped hi hs
      rcases kstep_data hs hf with e | ⟨x, g, d, k, -, -, hc, e, -⟩
      · rw [e]; exact hd
      · rw [e]; exact hupd _ _ _ _ _ _ _ hc hd
  exact hall.2

end Xv6Freezer
