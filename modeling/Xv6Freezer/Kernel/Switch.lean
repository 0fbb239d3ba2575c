import Xv6Freezer.Kernel.Preserve

/-! # Context switches keep the invariant

The instructions that `StepOk` does not cover: the stores to `c->proc` in `scheduler`, and the switches from
the scheduler to a process and back. In each the spinlock of the process passes, unreleased, from one thread
to the other.
-/

namespace Xv6Freezer

open Function (update update_of_ne)

variable {M : Client} {s s' : State M} {c c' : CpuId} {i p : Slot} {rest : List (Frame M)}
  {pc pc' : SchedulerPc}

/-! ## The stores to `c->proc` -/

/-- The scheduler of CPU `c` goes from `pc` to `pc'` and sets its `c->proc` accordingly. -/
structure CurrentOk (s s' : State M) (c : CpuId) (pc pc' : SchedulerPc) : Prop where
  on : (s.cpus c).on = none
  on' : (s'.cpus c).on = none
  stack : s.stackOf c = [.scheduler pc]
  stack' : s'.stackOf c = [.scheduler pc']
  cur' : (s'.cpus c).proc = pc'.cur
  noff : (s'.cpus c).noff = (s.cpus c).noff
  other : ∀ c', c' ≠ c → s'.cpus c' = s.cpus c'
  procs : s'.procs = s.procs
  kst : s'.kst = s.kst
  locks : s'.locks = s.locks
  /-- The three places where `scheduler` does it. -/
  pcs : pc = .start ∧ pc' = .loop 0 false ∨ (∃ i, pc = .pick i ∧ pc' = .swtch i) ∨
    ∃ i, pc = .back i ∧ pc' = .rel i true

namespace CurrentOk

section

variable (h : CurrentOk s s' c pc pc')

include h

theorem held : (pc'.held : List (Lock M)) = pc.held := by
  obtain ⟨rfl, rfl⟩ | ⟨i, rfl, rfl⟩ | ⟨i, rfl, rfl⟩ := h.pcs <;> rfl

theorem pick_of_cur (hi : pc'.cur = some i) : pc = .pick i ∧ pc' = .swtch i := by
  obtain ⟨rfl, rfl⟩ | ⟨j, rfl, rfl⟩ | ⟨j, rfl, rfl⟩ := h.pcs <;> simp_all [SchedulerPc.cur]

theorem stackOf_of_ne (hc : c' ≠ c) : s'.stackOf c' = s.stackOf c' := by
  simp only [State.stackOf, h.other c' hc, h.kst]

theorem holds (hi : Inv s) : pc.Holds s ∧ pc'.Holds s' := by
  have hst := hi.stack c
  rw [h.stack] at hst
  have hpc := hst.of_scheduler.2.2.1
  refine ⟨hpc, ?_⟩
  obtain ⟨rfl, rfl⟩ | ⟨j, rfl, rfl⟩ | ⟨j, rfl, rfl⟩ := h.pcs
  · trivial
  · show (s'.procs j).state = .running
    rw [h.procs]; exact hpc.1
  · trivial

theorem holds_other (hi : Inv s) (hc : c' ≠ c) {pc1 : SchedulerPc}
    (hst : SchedStack pc1 (s.stackOf c')) (hpc : pc1.Holds s) : pc1.Holds s' := by
  cases pc1 with
  | pick j =>
    simp only [SchedulerPc.Holds, h.procs] at hpc ⊢
    refine ⟨hpc.1, fun c2 => ?_⟩
    by_cases hc2 : c2 = c
    · -- both schedulers would hold the lock of `j`
      subst hc2
      rw [h.cur']
      intro hj
      obtain ⟨rfl, -⟩ := h.pick_of_cur hj
      refine hi.not_mem_of_ne (c := c') (l := .proc j) ?_ (Ne.symm hc) ?_
      · exact hst.held_subset _ (by simp [SchedulerPc.held])
      · simp [h.stack, Frame.held, SchedulerPc.held]
    · rw [h.other c2 hc2]; exact hpc.2 c2
  | swtch | back => simpa only [SchedulerPc.Holds, h.procs] using hpc
  | _ => trivial

end

theorem inv (hs : CurrentOk s s' c pc pc') (h : Inv s) : Inv s' where
  toLockInv := by
    refine h.toLockInv.same hs.locks (fun c' => ?_) (fun c' => ?_) <;> by_cases hc : c' = c
    · subst hc; simp [hs.stack, hs.stack', Frame.held, hs.held]
    · rw [hs.stackOf_of_ne hc]
    · subst hc; exact hs.noff
    · rw [hs.other c' hc]
  stack c' := by
    have hst := h.stack c'
    by_cases hc : c' = c
    · subst hc
      rw [hs.stack']
      simp only [StackOk, hs.on']
      exact ⟨pc', .inl ⟨rfl, rfl⟩, hs.cur', (hs.holds h).2⟩
    · rw [hs.stackOf_of_ne hc]
      simp only [StackOk, hs.other c' hc, hs.procs] at hst ⊢
      cases hon : (s.cpus c').on with
      | some p' => rw [hon] at hst; exact hst
      | none =>
        rw [hon] at hst
        obtain ⟨pc1, hsch, hcur, hpc⟩ := hst
        exact ⟨pc1, hsch, hcur, hs.holds_other h hc hsch hpc⟩
  busy c' p' hon := by
    by_cases hc : c' = c
    · subst hc; simp [hs.on'] at hon
    · rw [hs.other c' hc] at hon ⊢; exact h.busy c' p' hon
  uniq c1 c2 p' h1 h2 := by
    have key : ∀ {c2}, c2 ≠ c → (s'.cpus c).proc = some p' → (s'.cpus c2).proc ≠ some p' := by
      intro c2 hc2 hp
      rw [hs.cur'] at hp
      obtain ⟨rfl, -⟩ := hs.pick_of_cur hp
      rw [hs.other c2 hc2]
      exact (hs.holds h).1.2 c2
    by_cases hc1 : c1 = c <;> by_cases hc2 : c2 = c
    · rw [hc1, hc2]
    · subst hc1; exact absurd h2 (key hc2 h1)
    · subst hc2; exact absurd h1 (key hc1 h2)
    · rw [hs.other c1 hc1] at h1
      rw [hs.other c2 hc2] at h2
      exact h.uniq c1 c2 p' h1 h2
  occ c' p' hp := by
    rw [hs.procs, hs.locks]
    by_cases hc : c' = c
    · subst hc
      rw [hs.cur'] at hp
      obtain ⟨rfl, -⟩ := hs.pick_of_cur hp
      exact .inl (hs.holds h).1.1
    · rw [hs.other c' hc] at hp
      exact h.occ c' p' hp
  run p' hr := by
    rw [hs.procs] at hr
    rcases h.run p' hr with ⟨c', hp⟩ | ⟨c', hon, hst⟩ <;> by_cases hc : c' = c
    · -- `p'` was current here, so the scheduler is back from it, and `p'` is not `RUNNING`
      subst hc
      have hst := h.stack c'
      rw [hs.stack] at hst
      obtain ⟨-, hcur, hpc, -⟩ := hst.of_scheduler
      rw [hcur] at hp
      obtain ⟨rfl, rfl⟩ | ⟨j, rfl, rfl⟩ | ⟨j, rfl, rfl⟩ := hs.pcs
      · simp [SchedulerPc.cur] at hp
      · simp [SchedulerPc.cur] at hp
      · obtain rfl : j = p' := by simpa [SchedulerPc.cur] using hp
        exact absurd hr hpc
    · exact .inl ⟨c', by rw [hs.other c' hc, hp]⟩
    · subst hc
      rw [hs.stack] at hst
      obtain rfl : pc = .pick p' := by simpa using hst
      obtain ⟨hpc, -⟩ | ⟨j, hpc, rfl⟩ | ⟨j, hpc, -⟩ := hs.pcs
      · cases hpc
      · cases hpc; exact .inl ⟨c', hs.cur'⟩
      · cases hpc
    · exact .inr ⟨c', by rw [hs.other c' hc, hon], by rw [hs.stackOf_of_ne hc, hst]⟩
  saved p' hno hl := by
    rw [hs.procs] at hl ⊢
    rw [hs.kst]
    refine h.saved p' (fun c' hon => ?_) hl
    by_cases hc : c' = c
    · subst hc; simp [hs.on] at hon
    · exact hno c' (by rw [hs.other c' hc, hon])
  forks t r fpc hm := by
    rw [hs.kst] at hm
    simpa only [ForkPc.Holds, hs.procs] using h.forks t r fpc hm
  claims t t' r r' fpc fpc' j hm hm' hc hc' := by
    rw [hs.kst] at hm hm'
    exact h.claims t t' r r' fpc fpc' j hm hm' hc hc'
  notFrozen p' := by rw [hs.procs]; exact h.notFrozen p'

end CurrentOk

theorem Inv.cpuProc {v : Option Slot} (h : Inv s) (hf : s.stackOf c = .scheduler pc :: rest)
    (he : exec s c (.scheduler pc) rest (.write (.cpuProc v) [.scheduler pc']) = some s')
    (hv : pc'.cur = v) (hpcs : pc = .start ∧ pc' = .loop 0 false ∨
      (∃ i, pc = .pick i ∧ pc' = .swtch i) ∨ ∃ i, pc = .back i ∧ pc' = .rel i true) :
    CurrentOk s s' c pc pc' := by
  cases he
  have hst := h.stack c
  rw [hf] at hst
  obtain ⟨hon, -, -, rfl⟩ := hst.of_scheduler
  have hon' : ((s.apply c (.cpuProc v)).cpus c).on = none := by
    simp [State.apply, State.setCpu, hon]
  exact
    { on := hon
      on' := by simp [hon']
      stack := hf
      stack' := by simp
      cur' := by simp [State.apply, State.setCpu, hv]
      noff := by simp [State.apply, State.setCpu]
      other := fun c' hc => by
        simp [State.setStack, hon, State.apply, State.setCpu, update_of_ne hc]
      procs := by simp [State.apply, State.setCpu]
      kst := by simp [State.setStack, hon, State.apply, State.setCpu]
      locks := by simp [State.apply, State.setCpu]
      pcs := hpcs }

/-! ## Switches -/

/-- CPU `c` switches to process `i`, or from it; its lock stays held. -/
structure SwitchOk (s s' : State M) (c : CpuId) (i : Slot) : Prop where
  cpus : ∀ c', c' ≠ c → s'.cpus c' = s.cpus c'
  proc : (s'.cpus c).proc = (s.cpus c).proc
  noff : (s'.cpus c).noff = (s.cpus c).noff
  locks : s'.locks = s.locks
  slots : ∀ p, p ≠ i → s'.procs p = s.procs p ∧ s'.kst p = s.kst p
  state : (s'.procs i).state = (s.procs i).state
  /-- No other CPU executes on the stack of the process. -/
  on : ∀ c', c' ≠ c → (s.cpus c').on ≠ some i
  off : ∀ p, p ≠ i → (s.cpus c).on ≠ some p
  held : (heldBy (s'.stackOf c)).Perm (heldBy (s.stackOf c))
  stack : StackOk s' c (s'.stackOf c)
  busy : ∀ p, (s'.cpus c).on = some p →
    (s'.cpus c).proc = some p ∧ (s'.cpus c).context = [.scheduler (.back p)]
  pick : ∀ p, s.stackOf c ≠ [.scheduler (.pick p)]
  forks : ∀ r pc, .fork r pc ∈ s'.kst i → .fork r pc ∈ s.kst i
  used : (s.procs i).state ≠ .used
  saved : (s'.cpus c).on ≠ some i →
    Parked i (s'.procs i).context ∧ (s'.procs i).context = s'.kst i

theorem SwitchOk.inv (hs : SwitchOk s s' c i) (h : Inv s) : Inv s' := by
  have hproc : ∀ c', (s'.cpus c').proc = (s.cpus c').proc := fun c' => by
    by_cases hc : c' = c
    · subst hc; exact hs.proc
    · rw [hs.cpus c' hc]
  have hstate : ∀ p, (s'.procs p).state = (s.procs p).state := fun p => by
    by_cases hp : p = i
    · subst hp; exact hs.state
    · rw [(hs.slots p hp).1]
  have hother : ∀ c', c' ≠ c → s'.stackOf c' = s.stackOf c' := fun c' hc => by
    simp only [State.stackOf, hs.cpus c' hc]
    cases hon : (s.cpus c').on with
    | none => rfl
    | some p => exact (hs.slots p fun e => hs.on c' hc (by rw [hon, e])).2
  have hkst : ∀ t r fpc, .fork r fpc ∈ s'.kst t → .fork r fpc ∈ s.kst t := fun t r fpc hm => by
    by_cases ht : t = i
    · subst ht; exact hs.forks r fpc hm
    · rwa [(hs.slots t ht).2] at hm
  exact
    { toLockInv := by
        refine h.toLockInv.same hs.locks (fun c' => ?_) (fun c' => ?_) <;> by_cases hc : c' = c
        · subst hc; exact hs.held
        · rw [hother c' hc]
        · subst hc; exact hs.noff
        · rw [hs.cpus c' hc]
      stack := fun c' => by
        by_cases hc : c' = c
        · subst hc; exact hs.stack
        · have hst := h.stack c'
          rw [hother c' hc]
          simpa only [StackOk, hs.cpus c' hc, SchedulerPc.Holds, hstate, hproc] using hst
      busy := fun c' p hon => by
        by_cases hc : c' = c
        · subst hc; exact hs.busy p hon
        · rw [hs.cpus c' hc] at hon ⊢; exact h.busy c' p hon
      uniq := fun c1 c2 p h1 h2 => by
        rw [hproc] at h1 h2; exact h.uniq c1 c2 p h1 h2
      occ := fun c' p hp => by
        rw [hproc] at hp
        rw [hstate, hs.locks]
        exact h.occ c' p hp
      run := fun p hr => by
        rw [hstate] at hr
        rcases h.run p hr with ⟨c', hp⟩ | ⟨c', hon, hst⟩
        · exact .inl ⟨c', by rw [hproc, hp]⟩
        · have hc : c' ≠ c := by rintro rfl; exact hs.pick p hst
          exact .inr ⟨c', by rw [hs.cpus c' hc, hon], by rw [hother c' hc, hst]⟩
      saved := fun p hno hl => by
        by_cases hp : p = i
        · subst hp
          exact ⟨(hs.saved (hno c)).1, .inl (hs.saved (hno c)).2⟩
        · rw [hstate] at hl
          rw [(hs.slots p hp).1, (hs.slots p hp).2]
          refine h.saved p (fun c' => ?_) hl
          by_cases hc : c' = c
          · subst hc; exact hs.off p hp
          · rw [← hs.cpus c' hc]; exact hno c'
      forks := fun t r fpc hm j hj => by
        have hold := h.forks t r fpc (hkst t r fpc hm) j hj
        have hne : j ≠ i := by rintro rfl; exact hs.used hold.1
        rwa [(hs.slots j hne).1]
      claims := fun t t' r r' fpc fpc' j hm hm' hc hc' =>
        h.claims t t' r r' fpc fpc' j (hkst t r fpc hm) (hkst t' r' fpc' hm') hc hc'
      notFrozen := fun p => by rw [hstate]; exact h.notFrozen p }

/-! ## From the scheduler to a process -/

theorem Inv.saved_of_swtch (h : Inv s) (hf : s.stackOf c = .scheduler (.swtch i) :: rest) :
    (∀ c', (s.cpus c').on ≠ some i) ∧ Parked i (s.procs i).context ∧
      ((s.procs i).context = s.kst i ∨ (s.procs i).context = [.forkret i .rel]) := by
  have hst := h.stack c
  rw [hf] at hst
  obtain ⟨hon, hproc, hrun, rfl⟩ := hst.of_scheduler
  have hnone : ∀ c', (s.cpus c').on ≠ some i := fun c' hon' => by
    obtain rfl := h.uniq c' c i (h.busy c' i hon').1 hproc
    simp [hon] at hon'
  exact ⟨hnone, h.saved i hnone (.inr (.inr (.inl hrun)))⟩

/-- **The scheduler's `swtch` keeps the invariant**: the lock passes to the process. -/
theorem Inv.swtchTo (h : Inv s) (hf : s.stackOf c = .scheduler (.swtch i) :: rest)
    (he : exec s c (.scheduler (.swtch i)) rest (.swtchTo i [.scheduler (.back i)]) = some s') :
    Inv s' := by
  cases he
  have hst := h.stack c
  rw [hf] at hst
  obtain ⟨hon, hproc, hrun, rfl⟩ := hst.of_scheduler
  replace hproc : (s.cpus c).proc = some i := hproc
  replace hrun : (s.procs i).state = .running := hrun
  obtain ⟨hnone, hpark, hctx⟩ := h.saved_of_swtch hf
  obtain ⟨hps, hheld, -⟩ := id hpark
  refine SwitchOk.inv (s := s) (c := c) (i := i) ?_ h
  exact
    { cpus := fun c' hc => by simp [update_of_ne hc]
      proc := by simp
      noff := by simp
      locks := rfl
      slots := fun p hp => ⟨rfl, update_of_ne hp ..⟩
      state := rfl
      on := fun c' _ => hnone c'
      off := fun p _ => by simp [hon]
      held := by
        rw [hf]
        simp [State.stackOf, hheld, Frame.held, SchedulerPc.held]
      stack := by
        simp only [State.stackOf, StackOk, Function.update_self]
        exact ⟨hps, hrun.trans hpark.stateIn.symm⟩
      busy := fun p hp => by
        obtain rfl : i = p := by simpa using hp
        simpa using hproc
      pick := fun p => by simp [hf]
      forks := fun r pc hm => by
        rcases hctx with e | e
        · simpa [e] using hm
        · simp [e] at hm
      used := by simp [hrun]
      saved := fun hne => absurd (by simp) hne }

/-! ## From a process to the scheduler -/

theorem ProcStack.parked_of_sched {q : Slot} {ret : Frame M}
    (h : ProcStack p (.schedSwtch q ret :: rest)) (hb : heldBy rest = []) :
    Parked p (ret :: rest) := by
  obtain ⟨⟨-, hok, hres⟩, hkind⟩ := h
  refine ⟨⟨hok, ?_⟩, ?_, ret, rest, rfl, .inl hres⟩
  · simp only [Frame.kind] at hkind
    cases hk : ret.kind with
    | base | sys => rw [hk] at hkind; exact hkind
    | nested => rw [hk] at hkind; exact ⟨hkind.1, hkind.2.1, .inl hb⟩
  · rw [heldBy_cons, hb, Frame.held_of_resumes hok hres]; rfl

/-- **The `swtch` of `sched` keeps the invariant**: the lock passes back to the scheduler. -/
theorem Inv.swtchOut {q : Slot} {ret : Frame M} (h : Inv s)
    (hf : s.stackOf c = .schedSwtch q ret :: rest)
    (he : exec s c (.schedSwtch q ret) rest (.swtchOut q [ret]) = some s') : Inv s' := by
  cases he
  have hst := h.stack c
  rw [hf] at hst
  obtain ⟨p, hon⟩ := hst.on_some (by simp [Frame.IsScheduler]) (by simp [Frame.OnScheduler])
  have hbelow := hst.held_below (by simp [Frame.isScan])
  obtain ⟨⟨hqp, hok, hres⟩, hstate⟩ := hst.ok hon
  obtain rfl : p = q := hqp.symm
  have hpark : Parked p (ret :: rest) := by
    simp only [StackOk, hon] at hst
    exact hst.1.parked_of_sched hbelow
  obtain ⟨hproc, hcontext⟩ := h.busy c p hon
  -- `sched` is called in the states `RUNNABLE`, `SLEEPING` and `ZOMBIE`
  have hnr : (s.procs p).state ≠ .running ∧ (s.procs p).state ≠ .used := by
    rw [hstate]
    obtain ⟨q', rfl⟩ | ⟨q', chan, lk, ret', rfl⟩ | ⟨q', status, rfl⟩ := Frame.resumes_cases hres <;>
      simp [Frame.stateIn, Frame.parked]
  refine SwitchOk.inv (s := s) (c := c) (i := p) ?_ h
  exact
    { cpus := fun c' hc => by simp [update_of_ne hc]
      proc := by simp
      noff := by simp
      locks := rfl
      slots := fun p' hp => ⟨update_of_ne hp .., update_of_ne hp ..⟩
      state := by simp
      on := fun c' hc => h.on_ne hc hon
      off := fun p' hp e => hp (Option.some.inj (e.symm.trans hon))
      held := by
        have hheld : heldBy (.schedSwtch p ret :: rest) = [.proc p] := by
          rw [heldBy_cons, hbelow, Frame.held, Frame.held_of_resumes hok hres]; rfl
        rw [hf, hheld]
        simp [State.stackOf, hcontext, Frame.held, SchedulerPc.held]
      stack := by
        simp only [State.stackOf, StackOk, Function.update_self, hcontext]
        exact ⟨.back p, .inl ⟨rfl, rfl⟩, hproc, by simpa [SchedulerPc.Holds] using hnr.1⟩
      busy := fun p' hp => by simp at hp
      pick := fun p' => by simp [hf]
      forks := fun r pc hm => by
        have hm' : Frame.fork r pc ∈ ret :: rest := by simpa using hm
        rw [← State.stackOf_of_on hon, hf]
        rcases List.mem_cons.mp hm' with rfl | hm'
        · exact hres.elim
        · exact .tail _ hm'
      used := hnr.2
      saved := fun _ => by simpa using hpark }

end Xv6Freezer
