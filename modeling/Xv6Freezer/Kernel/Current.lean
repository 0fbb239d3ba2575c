import Xv6Freezer.Kernel.Threads

/-! # Who runs which process

A process is current on at most one CPU, its state says whether it is while its lock is free, and a process
that is not `RUNNING` has left its kernel stack.
-/

namespace Xv6Freezer

variable {M : Client} {init : M.Data → Prop} {s : State M} {c : CpuId} {p : Slot}

namespace Inv

theorem locked_of_on (h : Inv s) (hon : (s.cpus c).on = some p)
    (hr : (s.procs p).state ≠ .running) : s.locks (.proc p) = some c := by
  have hst := h.stack c
  simp only [StackOk, hon] at hst
  rw [h.locks]
  exact hst.1.held_of_stateIn (by rw [← hst.2]; exact hr)

theorem running_iff (h : Inv s) (hfree : s.locks (.proc p) = none) :
    (s.procs p).state = .running ↔ ∃! c, (s.cpus c).proc = some p := by
  constructor
  · intro hr
    rcases h.run p hr with ⟨c, hc⟩ | ⟨c, -, hst⟩
    · exact ⟨c, hc, fun c' hc' => h.uniq c' c p hc' hc⟩
    · -- a scheduler about to store `c->proc` holds the lock
      have hl : s.locks (.proc p) = some c := by
        rw [h.locks, hst]; simp [Frame.held, SchedulerPc.held]
      rw [hfree] at hl
      cases hl
  · rintro ⟨c, hc, -⟩
    rcases h.occ c p hc with hr | hl
    · exact hr
    · rw [hfree] at hl
      cases hl

/-- A process whose lock is free and that is not `RUNNING` executes nowhere. -/
theorem off_of_free (h : Inv s) (hfree : s.locks (.proc p) = none)
    (hst : (s.procs p).state = .runnable ∨ (s.procs p).state = .sleeping ∨
      (s.procs p).state = .zombie) :
    (∀ c, (s.cpus c).on ≠ some p) ∧ Parked p (s.procs p).context ∧
      ((s.procs p).context = s.kst p ∨ (s.procs p).context = [.forkret p .rel]) := by
  have hoff : ∀ c, (s.cpus c).on ≠ some p := fun c hon => by
    have hl := h.locked_of_on hon (by rcases hst with e | e | e <;> simp [e])
    rw [hfree] at hl
    cases hl
  refine ⟨hoff, h.saved p hoff ?_⟩
  rcases hst with e | e | e <;> simp [ProcState.Live, e]

theorem off_of_held {f : Frame M} {rest : List (Frame M)} (h : Inv s)
    (hf : s.stackOf c = f :: rest) (hns : ∀ pc, ¬ f.IsScheduler pc) (hl : .proc p ∈ f.held)
    (hin : f.stateIn = .running) (hr : (s.procs p).state ≠ .running) (c' : CpuId) :
    (s.cpus c').on ≠ some p ∧ (s.cpus c').proc ≠ some p := by
  have hlock : s.locks (.proc p) = some c := by
    rw [h.locks, hf]; exact List.mem_append_left _ hl
  have hself : (s.cpus c).on ≠ some p := fun hon =>
    hr (((h.stack_cons hf).ok hon).2.trans hin)
  have hon : (s.cpus c').on ≠ some p := fun hon => by
    obtain rfl := Option.some.inj ((h.locked_of_on hon hr).symm.trans hlock)
    exact hself hon
  refine ⟨hon, fun hp => ?_⟩
  rcases h.occ c' p hp with hr' | hl'
  · exact hr hr'
  · obtain rfl := Option.some.inj (hl'.symm.trans hlock)
    exact hself (h.on_of_current hf hns hp)

theorem not_schedPanics {msg : String} {f : Frame M} {rest : List (Frame M)} (h : Inv s)
    (hf : s.stackOf c = .panic msg f :: rest) : msg ∉ schedPanics := by
  have hst := h.stack_cons hf
  unfold StackOk at hst
  cases hon : (s.cpus c).on with
  | some p => rw [hon] at hst; exact hst.1.1.2
  | none =>
    rw [hon] at hst
    obtain ⟨pc, ⟨hs, -⟩ | ⟨hs, -⟩, -⟩ := hst
    · exact hs.elim
    · exact hs.2

end Inv

theorem event_reaps {a : CpuId × Act M} (h : event s a = .reaps p) :
    ∃ r addr rest, s.stackOf a.1 = .wait r addr (.look p) :: rest ∧
      (s.procs p).state = .zombie := by
  unfold event at h
  split at h
  · rename_i f rest x hf _
    unfold frameEvent at h
    split at h <;> try (split at h <;> cases h)
    · rename_i hz
      exact ⟨_, _, _, hf, hz.1⟩
    · cases h
  · cases h

/-- **A process is current on at most one CPU, and its state agrees**: while its lock is free it is `RUNNING`
iff one CPU has it current, and if it is `RUNNABLE`, `SLEEPING` or `ZOMBIE` it executes nowhere and has its
context saved; `wait` frees no process that still runs, and every check of `sched` passes. -/
theorem current_exclusive (h : (kernel M init).Reachable s) :
    (∀ c c' p, (s.cpus c).proc = some p → (s.cpus c').proc = some p → c = c') ∧
    (∀ p, s.locks (.proc p) = none →
      ((s.procs p).state = .running ↔ ∃! c, (s.cpus c).proc = some p)) ∧
    (∀ p, s.locks (.proc p) = none →
      (s.procs p).state = .runnable ∨ (s.procs p).state = .sleeping ∨
        (s.procs p).state = .zombie →
      (∀ c, (s.cpus c).on ≠ some p) ∧ Parked p (s.procs p).context ∧
        ((s.procs p).context = s.kst p ∨ (s.procs p).context = [.forkret p .rel])) ∧
    (∀ a p, event s a = .reaps p → ∀ c, (s.cpus c).on ≠ some p ∧ (s.cpus c).proc ≠ some p) ∧
    (∀ c ret rest, s.stackOf c = .schedCheck ret :: rest →
      ∃ p, schedCode s c ret = .jump [.schedSwtch p ret]) ∧
    (∀ c msg f rest, s.stackOf c = .panic msg f :: rest →
      msg ≠ "sched running" ∧ msg ≠ "sched p->lock") := by
  have hi := reachable_inv h
  refine ⟨hi.uniq, fun p => hi.running_iff, fun p => hi.off_of_free, ?_, ?_, ?_⟩
  · intro a p he c
    obtain ⟨r, addr, rest, hf, hz⟩ := event_reaps he
    refine hi.off_of_held hf (fun _ => id) ?_ rfl (by simp [hz]) c
    simp [Frame.held, WaitPc.held]
  · intro c ret rest hf
    obtain ⟨p, -, hcode⟩ := hi.schedCode_eq hf
    exact ⟨p, hcode⟩
  · intro c msg f rest hf
    have hmsg := hi.not_schedPanics hf
    simp only [schedPanics, List.mem_cons, not_or] at hmsg
    exact ⟨hmsg.2.2.1, hmsg.1⟩

/-- The first process, just started by CPU 0, is current on exactly one CPU. -/
theorem current_exclusive_first : ∃ s, idleKernel.Reachable s ∧ s.locks (.proc 0) = none ∧
    (s.procs 0).state = .running ∧ ∃! c, (s.cpus c).proc = some 0 := by
  obtain ⟨s, hs, hp⟩ := Lib.Lts.reachable_of_execs (goes 0 6)
    (fun s : State idleClient => decide (s.locks (.proc 0) = none ∧ (s.procs 0).state = .running))
    idleKernel_init (by decide)
  obtain ⟨hfree, hrun⟩ := of_decide_eq_true hp
  exact ⟨s, hs, hfree, hrun, ((current_exclusive hs).2.1 0 hfree).mp hrun⟩

end Xv6Freezer
