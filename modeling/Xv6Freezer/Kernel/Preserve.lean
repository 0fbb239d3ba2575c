import Xv6Freezer.Kernel.Change

/-! # Instructions keep the invariant -/

namespace Xv6Freezer

open Function (update update_self update_of_ne)

variable {M : Client} {s s' : State M} {c c' : CpuId} {i p : Slot} {f : Frame M} {q : Proc M}
  {k rest : List (Frame M)}

/-! ## Other CPUs -/

theorem Inv.on_ne (h : Inv s) (hc : c' ≠ c) (hon : (s.cpus c).on = some p) :
    (s.cpus c').on ≠ some p := fun hon' =>
  hc (h.uniq c' c p (h.busy c' p hon').1 (h.busy c p hon).1)

theorem Inv.not_held_of_ne (h : Inv s) (hf : s.stackOf c = f :: rest) (hc : c' ≠ c)
    {l : Lock M} (hl : l ∈ heldBy (s.stackOf c')) : l ∉ f.held := fun hl' =>
  h.not_mem_of_ne hl (Ne.symm hc) (by rw [hf]; exact List.mem_append_left _ hl')

/-- The forks among the frames `k` that replace `f`: what they need holds after the step, and their slot was
unused, or is that of `f`, built by `f` if it is still built. -/
def ForksOk (s s' : State M) (f : Frame M) (k : List (Frame M)) : Prop :=
  ∀ r pc, .fork r pc ∈ k → pc.Holds s' ∧ ∀ j, pc.claims = some j →
    (∃ r' pc', f = .fork r' pc' ∧ pc'.claims = some j ∧ (pc.building = true → pc'.building = true)) ∨
      (s.procs j).state = .unused

/-- What `Inv.step` needs to know of a step of CPU `c`: `k` replaces its frame `f`, slot `i` becomes `q` as
the code allows, `c->proc` and the executing stacks stay. -/
structure StepOk (s s' : State M) (c : CpuId) (f : Frame M) (k rest : List (Frame M)) (i : Slot)
    (q : Proc M) : Prop where
  lock : LockInv s'
  stackOf : s.stackOf c = f :: rest
  stackOf' : s'.stackOf c = k ++ rest
  on : ∀ c', (s'.cpus c').on = (s.cpus c').on
  proc : ∀ c', (s'.cpus c').proc = (s.cpus c').proc
  context : ∀ c', (s'.cpus c').context = (s.cpus c').context
  other : ∀ c', c' ≠ c → s'.stackOf c' = s.stackOf c'
  kst : ∀ r, (s.cpus c).on ≠ some r → s'.kst r = s.kst r
  procs : s'.procs = update s.procs i q
  change : Change s c i f q
  stack : StackOk s' c (k ++ rest)
  occ : ∀ p, (s.cpus c).proc = some p →
    (s'.procs p).state = .running ∨ s'.locks (.proc p) = some c
  pick : ∀ j, f ≠ .scheduler (.pick j)
  run : q.state = .running → (s.procs i).state ≠ .running →
    (s.cpus c).on = none ∧ k ++ rest = [.scheduler (.pick i)]
  forks : ForksOk s s' f k

namespace StepOk

theorem procs_of_ne (h : StepOk s s' c f k rest i q) {j : Slot} (hj : j ≠ i) :
    s'.procs j = s.procs j := by rw [h.procs, update_of_ne hj]

theorem procs_self (h : StepOk s s' c f k rest i q) : s'.procs i = q := by
  rw [h.procs, update_self]

section

variable (hs : StepOk s s' c f k rest i q)

include hs

theorem state_of_held (h : Inv s) (hc : c' ≠ c) {j : Slot}
    (hj : Lock.proc j ∈ heldBy (s.stackOf c')) : (s'.procs j).state = (s.procs j).state := by
  by_cases hji : j = i
  · subst hji
    rw [hs.procs_self]
    exact hs.change.state_eq_or_held.resolve_right (h.not_held_of_ne hs.stackOf hc hj)
  · rw [hs.procs_of_ne hji]

theorem running_stays (h : Inv s) {j : Slot}
    (hj : (s.procs j).state = .running) (hon : (s.cpus c).on ≠ some j) :
    (s'.procs j).state = .running := by
  by_cases hji : j = i
  · subst hji
    rw [hs.procs_self]
    exact (hs.change.running_stays (StackOk.fork_holds h hs.stackOf) hj).resolve_right hon
  · rw [hs.procs_of_ne hji]; exact hj

theorem stack_other (h : Inv s) (hc : c' ≠ c) : StackOk s' c' (s'.stackOf c') := by
  have hst := h.stack c'
  rw [hs.other c' hc]
  unfold StackOk at hst ⊢
  rw [hs.on]
  cases hon : (s.cpus c').on with
  | none =>
    rw [hon] at hst
    obtain ⟨pc, hsch, hcur, hpc⟩ := hst
    refine ⟨pc, hsch, by rw [hs.proc, hcur], ?_⟩
    have hkeep : ∀ j, Lock.proc j ∈ (pc.held : List (Lock M)) →
        (s'.procs j).state = (s.procs j).state := fun j hj =>
      hs.state_of_held h hc (hsch.held_subset _ hj)
    cases pc with
    | pick j =>
      refine ⟨(hkeep j (by simp [SchedulerPc.held])).trans hpc.1, fun c'' => ?_⟩
      rw [hs.proc]; exact hpc.2 c''
    | swtch j => exact (hkeep j (by simp [SchedulerPc.held])).trans hpc
    | back j =>
      show (s'.procs j).state ≠ .running
      rw [hkeep j (by simp [SchedulerPc.held])]; exact hpc
    | _ => trivial
  | some p' =>
    rw [hon] at hst
    refine ⟨hst.1, ?_⟩
    by_cases hrun : stateIn (s.stackOf c') = .running
    · -- `p'` is `RUNNING`, and only its own CPU could change that
      rw [hrun]
      exact hs.running_stays h (hst.2.trans hrun) fun hon' => h.on_ne (Ne.symm hc) hon hon'
    · rw [hs.state_of_held h hc (hst.1.held_of_stateIn hrun), hst.2]

theorem holds_old (h : Inv s) {r t : Slot} {pc : ForkPc}
    (hmem : .fork r pc ∈ s.kst t) (hne : ∀ r' pc', f = .fork r' pc' → (s.cpus c).on ≠ some t) :
    pc.Holds s' := by
  intro j hj
  obtain ⟨hu, hctx⟩ := h.forks t r pc hmem j hj
  by_cases hji : j = i
  · subst hji
    have hon : (s.cpus c).on ≠ some j := fun hon => by
      have hst := h.stack c
      simp only [StackOk, hon] at hst
      exact stateIn_ne_used _ (hst.2.symm.trans hu)
    rw [hs.procs_self]
    rcases hs.change.used_stays hu hon with ⟨hu', hc'⟩ | ⟨r', pc', rfl, hcl⟩
    · exact ⟨hu', fun hb => hc'.trans (hctx hb)⟩
    · -- the frame that works on `j` is unique, and it is not this one
      exfalso
      obtain ⟨p, hp⟩ : ∃ p, (s.cpus c).on = some p := by
        by_contra hnone
        have hst := h.stack c
        have hnone' : (s.cpus c).on = none := by
          cases hon' : (s.cpus c).on with
          | none => rfl
          | some p => exact absurd ⟨p, hon'⟩ hnone
        simp only [StackOk, hnone', hs.stackOf] at hst
        obtain ⟨pc'', hs'', -, -⟩ := hst
        rcases hs'' with ⟨hs'', -⟩ | ⟨hs'', -⟩ <;> exact hs''.elim
      have hmem' : .fork r' pc' ∈ s.kst p := by
        rw [← State.stackOf_of_on hp, hs.stackOf]; exact .head _
      have := h.claims p t r' r pc' pc j hmem' hmem hcl hj
      exact hne r' pc' rfl (by rw [hp, this])
  · rw [hs.procs_of_ne hji]; exact ⟨hu, hctx⟩

theorem kst_self (hon : (s.cpus c).on = some p) : s'.kst p = k ++ rest := by
  rw [← State.stackOf_of_on (s := s') (c := c) (by rw [hs.on, hon]), hs.stackOf']

theorem fork_cases {r t : Slot} {pc : ForkPc} (hmem : .fork r pc ∈ s'.kst t) :
    ((s.cpus c).on = some t ∧ .fork r pc ∈ k) ∨ .fork r pc ∈ s.kst t ∧
      ((s.cpus c).on = some t → .fork r pc ∈ rest) := by
  by_cases hon : (s.cpus c).on = some t
  · rw [hs.kst_self hon, List.mem_append] at hmem
    rcases hmem with hk | hrest
    · exact .inl ⟨hon, hk⟩
    · refine .inr ⟨?_, fun _ => hrest⟩
      rw [← State.stackOf_of_on hon, hs.stackOf]
      exact .tail _ hrest
  · rw [hs.kst t hon] at hmem
    exact .inr ⟨hmem, fun h => absurd h hon⟩

theorem inv (h : Inv s) : Inv s' where
  toLockInv := hs.lock
  stack c' := by
    by_cases hc : c' = c
    · subst hc; rw [hs.stackOf']; exact hs.stack
    · exact hs.stack_other h hc
  busy c' p' hon := by
    rw [hs.on] at hon
    rw [hs.proc, hs.context]
    exact h.busy c' p' hon
  uniq c1 c2 p' h1 h2 := by
    rw [hs.proc] at h1 h2
    exact h.uniq c1 c2 p' h1 h2
  occ c' p' hp := by
    rw [hs.proc] at hp
    by_cases hc : c' = c
    · subst hc; exact hs.occ p' hp
    · rcases h.occ c' p' hp with hr | hl
      · refine .inl (hs.running_stays h hr fun hon => ?_)
        exact hc (h.uniq c' c p' hp (h.busy c p' hon).1)
      · right
        rw [hs.lock.locks, hs.other c' hc]
        exact (h.locks c' _).mp hl
  run p' hr := by
    have hold : (s.procs p').state = .running →
        (∃ c, (s'.cpus c).proc = some p') ∨
          ∃ c, (s'.cpus c).on = none ∧ s'.stackOf c = [.scheduler (.pick p')] := by
      intro hr'
      rcases h.run p' hr' with ⟨c', hc'⟩ | ⟨c', hon, hst⟩
      · exact .inl ⟨c', by rw [hs.proc, hc']⟩
      · refine .inr ⟨c', by rw [hs.on, hon], ?_⟩
        have hc : c' ≠ c := by
          rintro rfl
          rw [hs.stackOf] at hst
          exact hs.pick p' (List.cons.inj hst).1
        rw [hs.other c' hc, hst]
    by_cases hpi : p' = i
    · subst hpi
      by_cases hr' : (s.procs p').state = .running
      · exact hold hr'
      · rw [hs.procs_self] at hr
        obtain ⟨hon, hk⟩ := hs.run hr hr'
        exact .inr ⟨c, by rw [hs.on, hon], by rw [hs.stackOf', hk]⟩
    · rw [hs.procs_of_ne hpi] at hr
      exact hold hr
  saved p' hon hl := by
    have hon' : ∀ c, (s.cpus c).on ≠ some p' := fun c' => by rw [← hs.on]; exact hon c'
    rw [hs.kst p' (hon' c)]
    by_cases hpi : p' = i
    · subst hpi
      rw [hs.procs_self] at hl ⊢
      rcases hs.change.live_of (StackOk.fork_holds h hs.stackOf) (hon' c) hl with ⟨hl', hc'⟩ | hc'
      · rw [hc']; exact h.saved p' hon' hl'
      · rw [hc']; exact ⟨parked_forkret p', .inr rfl⟩
    · rw [hs.procs_of_ne hpi] at hl ⊢
      exact h.saved p' hon' hl
  forks t r pc hmem := by
    rcases hs.fork_cases hmem with ⟨-, hk⟩ | ⟨hold, hrest⟩
    · exact (hs.forks r pc hk).1
    · refine hs.holds_old h hold fun r' pc' hf hon => ?_
      have hst := h.stack c
      simp only [StackOk, hon, hs.stackOf, hf] at hst
      exact hst.1.no_fork_below r pc (hrest hon)
  claims t t' r r' pc pc' j hm hm' hc hc' := by
    -- a frame that is new on the stack of `t` excludes one on another stack
    have key : ∀ {t t' r r' pc pc'}, (s.cpus c).on = some t → .fork r pc ∈ k →
        .fork r' pc' ∈ s.kst t' → pc.claims = some j → pc'.claims = some j → t = t' := by
      intro t t' r r' pc pc' hon hk hold' hc hc'
      rcases (hs.forks r pc hk).2 j hc with ⟨r0, pc0, rfl, hc0, -⟩ | hun
      · refine h.claims t t' r0 r' pc0 pc' j ?_ hold' hc0 hc'
        rw [← State.stackOf_of_on hon, hs.stackOf]
        exact .head _
      · have := (h.forks t' r' pc' hold' j hc').1
        simp [hun] at this
    rcases hs.fork_cases hm with ⟨hon, hk⟩ | ⟨hold, -⟩ <;>
      rcases hs.fork_cases hm' with ⟨hon', hk'⟩ | ⟨hold', -⟩
    · exact Option.some.inj (hon.symm.trans hon')
    · exact key hon hk hold' hc hc'
    · exact (key hon' hk' hold hc' hc).symm
    · exact h.claims t t' r r' pc pc' j hold hold' hc hc'
  notFrozen p' := by
    by_cases hpi : p' = i
    · subst hpi
      rw [hs.procs_self]
      exact hs.change.state_ne_frozen (h.notFrozen p')
    · rw [hs.procs_of_ne hpi]
      exact h.notFrozen p'

end

end StepOk

/-- A step of CPU `c` from its frame `f` that switches no stack. -/
def Stays (s s' : State M) (c : CpuId) (f : Frame M) (rest : List (Frame M)) : Prop :=
  ∃ k i q, StepOk s s' c f k rest i q

/-! ## The stacks after an instruction -/

/-- The frame `f'` may take the place of `f` on the stack of CPU `c`. -/
structure Frame.Next (s : State M) (c : CpuId) (f f' : Frame M) : Prop where
  proc : ∀ pc, ¬ f.IsScheduler pc
  ok : ∀ p, (s.cpus c).on = some p → f.Ok p → f'.Ok p
  kind : f'.kind = f.kind
  scan : f.isScan → f'.isScan
  sched : f.OnScheduler → f'.OnScheduler
  stateIn : f'.stateIn = f.stateIn

namespace StackOk

theorem of_scheduler {pc : SchedulerPc} (h : StackOk s c (.scheduler pc :: rest)) :
    (s.cpus c).on = none ∧ (s.cpus c).proc = pc.cur ∧ pc.Holds s ∧ rest = [] := by
  unfold StackOk at h
  cases hon : (s.cpus c).on with
  | some p => rw [hon] at h; exact h.1.1.elim
  | none =>
    rw [hon] at h
    obtain ⟨pc', hs, hcur, hpc⟩ := h
    rcases hs with ⟨rfl, hr⟩ | ⟨hs, -⟩
    · exact ⟨rfl, hcur, hpc, hr⟩
    · exact hs.elim

section

variable (h : StackOk s c (f :: rest))

include h

theorem congr (hf : ∀ pc, ¬ f.IsScheduler pc)
    (hon : (s'.cpus c).on = (s.cpus c).on) (hproc : (s'.cpus c).proc = (s.cpus c).proc)
    (hst : ∀ p, (s.cpus c).on = some p → (s'.procs p).state = (s.procs p).state) :
    StackOk s' c (f :: rest) := by
  unfold StackOk at h ⊢
  rw [hon]
  cases hc : (s.cpus c).on with
  | some p => rw [hc] at h; exact ⟨h.1, (hst p hc).trans h.2⟩
  | none =>
    rw [hc] at h
    obtain ⟨pc, hs, hcur, -⟩ := h
    refine ⟨pc, hs, hproc.trans hcur, ?_⟩
    -- an interrupt handler is above `scheduler`, which then holds no process lock
    rcases hs with ⟨hs, -⟩ | ⟨-, hs, hb⟩
    · exact (hf pc hs).elim
    · have hno : ∀ j, Lock.proc j ∉ (pc.held : List (Lock M)) := fun j hj => by
        have hm := hs.held_subset _ hj
        rcases hb with hb | ⟨-, hb⟩
        · simp [hb] at hm
        · exact hb j hm
      cases pc with
      | pick j | swtch j | back j => exact absurd (by simp [SchedulerPc.held]) (hno j)
      | _ => trivial

theorem next {f' : Frame M} (hn : Frame.Next s c f f') : StackOk s c (f' :: rest) := by
  unfold StackOk at h ⊢
  have hbelow : ∀ ls, HeldBelow f ls → HeldBelow f' ls := fun ls hb =>
    hb.imp_right fun ⟨h1, h2⟩ => ⟨hn.scan h1, h2⟩
  cases hc : (s.cpus c).on with
  | some p =>
    rw [hc] at h
    refine ⟨⟨hn.ok p hc h.1.1, ?_⟩, by rw [stateIn_cons, hn.stateIn]; exact h.2⟩
    have h2 := h.1.2
    rw [hn.kind]
    cases hk : f.kind with
    | base | sys => rw [hk] at h2; exact h2
    | nested => rw [hk] at h2; exact ⟨h2.1, h2.2.1, hbelow _ h2.2.2⟩
  | none =>
    rw [hc] at h
    obtain ⟨pc, hs, hcur, hpc⟩ := h
    refine ⟨pc, ?_, hcur, hpc⟩
    rcases hs with ⟨hs, -⟩ | ⟨hs, hr, hb⟩
    · exact (hn.proc pc hs).elim
    · exact .inr ⟨hn.sched hs, hr, hbelow _ hb⟩

theorem own {f' : Frame M} (hon : (s.cpus c).on = some p)
    (hon' : (s'.cpus c).on = some p) (hscan : ¬ f.isScan) (hok : f'.Ok p) (hkind : f'.kind = f.kind)
    (hin : (s'.procs p).state = f'.stateIn) : StackOk s' c (f' :: rest) := by
  simp only [StackOk, hon, hon'] at h ⊢
  refine ⟨⟨hok, ?_⟩, hin⟩
  have h2 := h.1.2
  rw [hkind]
  cases hk : f.kind with
  | base | sys => rw [hk] at h2; exact h2
  | nested =>
    rw [hk] at h2
    exact ⟨h2.1, h2.2.1, .inl (h2.2.2.resolve_right fun hx => hscan hx.1)⟩

theorem pop (hf : ∀ pc, ¬ f.IsScheduler pc) (hkind : f.kind ≠ .base)
    (hin : f.stateIn = .running) : StackOk s c rest := by
  unfold StackOk at h ⊢
  cases hc : (s.cpus c).on with
  | some p =>
    rw [hc] at h
    obtain ⟨⟨-, h2⟩, hst⟩ := h
    rw [stateIn_cons, hin] at hst
    cases hk : f.kind with
    | base => exact absurd hk hkind
    | sys =>
      rw [hk] at h2
      obtain rfl : rest = [.body p] := h2
      exact ⟨⟨rfl, rfl⟩, hst⟩
    | nested =>
      rw [hk] at h2
      exact ⟨h2.1, hst.trans h2.2.1.symm⟩
  | none =>
    rw [hc] at h
    obtain ⟨pc, hs, hcur, hpc⟩ := h
    refine ⟨pc, ?_, hcur, hpc⟩
    rcases hs with ⟨hs, -⟩ | ⟨-, hr, -⟩
    · exact (hf pc hs).elim
    · exact hr

theorem push {g : Frame M} (hin : f.stateIn = .running)
    (hok : ∀ p, (s.cpus c).on = some p → g.Ok p) (hkind : g.kind = .nested)
    (hsch : (s.cpus c).on = none → g.OnScheduler) (hg : g.stateIn = .running)
    (hb : HeldBelow g (heldBy (f :: rest))) : StackOk s c (g :: f :: rest) := by
  unfold StackOk at h ⊢
  cases hc : (s.cpus c).on with
  | some p =>
    rw [hc] at h
    refine ⟨⟨hok p hc, ?_⟩, ?_⟩
    · rw [hkind]; exact ⟨h.1, hin, hb⟩
    · rw [stateIn_cons, hg, h.2, stateIn_cons, hin]
  | none =>
    rw [hc] at h
    obtain ⟨pc, hs, hcur, hpc⟩ := h
    exact ⟨pc, .inr ⟨hsch hc, hs, hb⟩, hcur, hpc⟩

theorem heldBelow : HeldBelow f (heldBy rest) := by
  unfold StackOk at h
  cases hc : (s.cpus c).on with
  | some p =>
    rw [hc] at h
    have h2 := h.1.2
    cases hk : f.kind with
    | base => rw [hk] at h2; exact .inl (by simp [show rest = [] from h2])
    | sys => rw [hk] at h2; exact .inl (by simp [show rest = [.body p] from h2, Frame.held])
    | nested => rw [hk] at h2; exact h2.2.2
  | none =>
    rw [hc] at h
    obtain ⟨pc, hst, -, -⟩ := h
    rcases hst with ⟨-, rfl⟩ | ⟨-, -, hb⟩
    · exact .inl rfl
    · exact hb

theorem held_below (hs : ¬ f.isScan) : heldBy rest = [] := h.heldBelow.resolve_right fun hx => hs hx.1

theorem noProcLock_below : NoProcLock (heldBy rest) := by
  rcases h.heldBelow with e | ⟨-, hb⟩
  · rw [e]
    exact fun _ => List.not_mem_nil
  · exact hb

theorem ok (hon : (s.cpus c).on = some p) : f.Ok p ∧ (s.procs p).state = f.stateIn := by
  simp only [StackOk, hon] at h
  exact ⟨h.1.1, h.2⟩

theorem on_some (hf : ∀ pc, ¬ f.IsScheduler pc) (hsch : ¬ f.OnScheduler) : ∃ p, (s.cpus c).on = some p := by
  unfold StackOk at h
  cases hc : (s.cpus c).on with
  | some p => exact ⟨p, rfl⟩
  | none =>
    rw [hc] at h
    obtain ⟨pc, hst, -, -⟩ := h
    rcases hst with ⟨hs, -⟩ | ⟨hs, -⟩
    · exact (hf pc hs).elim
    · exact (hsch hs).elim

end

end StackOk

/-! ## Spinlock instructions -/

theorem Inv.stepOk_lock {l : Lock M} {x : Option CpuId} {n : Nat} (h : Inv s)
    (hf : s.stackOf c = f :: rest)
    (hlock : LockInv (((s.setLock l x).setNoff c n).setStack c (k ++ rest)))
    (hst : StackOk s c (k ++ rest))
    (hocc : ∀ p, (s.cpus c).proc = some p → (s.procs p).state = .running ∨
      update s.locks l x (.proc p) = some c)
    (hpick : ∀ j, f ≠ .scheduler (.pick j)) (hforks : ForksOk s s f k) :
    Stays s (((s.setLock l x).setNoff c n).setStack c (k ++ rest)) c f rest := by
  refine ⟨k, 0, s.procs 0, ?_⟩
  exact
    { lock := hlock
      stackOf := hf
      stackOf' := by simp
      on := by simp
      proc := by simp
      context := by simp
      other := fun c' hc => by
        rw [State.stackOf_setStack_of_ne _ hc]
        · simp
        · simpa using fun p hp => h.on_ne hc hp
      kst := fun r hr => by rw [State.setStack_kst_of_ne _ (by simpa using hr)]; rfl
      procs := by simp
      change := .refl f
      stack := by simpa [StackOk, SchedulerPc.Holds] using hst
      occ := by simpa using hocc
      pick := hpick
      run := fun h1 h2 => absurd h1 h2
      forks := by simpa [ForksOk, ForkPc.Holds] using hforks }

theorem Inv.acquire {l : Lock M} (h : Inv s) (hf : s.stackOf c = f :: rest)
    (he : exec s c f rest (.acquire l k) = some s') (hnot : l ∉ f.held ++ heldBy rest)
    (hheld : (heldBy k).Perm (l :: f.held)) (hst : StackOk s c (k ++ rest))
    (hpick : ∀ j, f ≠ .scheduler (.pick j)) (hforks : ForksOk s s f k) : Stays s s' c f rest := by
  have hself : s.locks l ≠ some c := fun e => hnot (by
    have := (h.locks c l).mp e
    rwa [hf] at this)
  simp only [exec, if_neg hself, ne_eq, ite_not] at he
  split at he
  case isFalse => cases he
  case isTrue hl =>
    cases he
    refine h.stepOk_lock hf ?_ hst (fun p hp => ?_) hpick hforks
    · refine h.toLockInv.acquire (c := c) hl (by simp) (fun c' hc => ?_) (by simp) ?_
      · refine ⟨?_, by simp [State.setNoff_noff_of_ne _ hc]⟩
        rw [State.stackOf_setStack_of_ne _ hc]
        · simp
        · simpa using fun p hp => h.on_ne hc hp
      · rw [State.stackOf_setStack, hf, heldBy_append, heldBy_cons, ← List.cons_append]
        exact hheld.append_right _
    · rcases h.occ c p hp with hr | hlk
      · exact .inl hr
      · right
        rw [update_of_ne (fun e => by rw [← e, hlk] at hl; cases hl), hlk]

theorem Inv.release {l : Lock M} (h : Inv s) (hf : s.stackOf c = f :: rest)
    (he : exec s c f rest (.release l k) = some s') (hheld : f.held.Perm (l :: heldBy k))
    (hst : StackOk s c (k ++ rest))
    (hocc : ∀ p, (s.cpus c).proc = some p → l = .proc p → (s.procs p).state = .running)
    (hpick : ∀ j, f ≠ .scheduler (.pick j)) (hforks : ForksOk s s f k) : Stays s s' c f rest := by
  have hmem : l ∈ heldBy (s.stackOf c) := by
    rw [hf]
    exact List.mem_append_left _ (hheld.mem_iff.mpr (.head _))
  have hself : s.locks l = some c := (h.locks c l).mpr hmem
  simp only [exec, hself, ne_eq, not_true_eq_false, if_false] at he
  cases he
  refine h.stepOk_lock hf ?_ hst (fun p hp => ?_) hpick hforks
  · refine h.toLockInv.release (c := c) (l := l) (by simp) (fun c' hc => ?_) (by simp) ?_
    · refine ⟨?_, by simp [State.setNoff_noff_of_ne _ hc]⟩
      rw [State.stackOf_setStack_of_ne _ hc]
      · simp
      · simpa using fun p hp => h.on_ne hc hp
    · rw [State.stackOf_setStack, hf, heldBy_append, heldBy_cons, ← List.cons_append]
      exact hheld.append_right _
  · by_cases hl : l = .proc p
    · exact .inl (hocc p hp hl)
    · rcases h.occ c p hp with hr | hlk
      · exact .inl hr
      · exact .inr (by rw [update_of_ne (Ne.symm hl), hlk])

/-! ## Writes -/

/-- The write turns slot `i` into `q` and leaves the CPUs' `proc` fields alone. -/
def Write.Sets (s : State M) (i : Slot) (q : Proc M) : Write M → Prop
  | .none | .data _ | .first => q = s.procs i
  | .proc j r | .alloc j r => j = i ∧ r = q
  | .parent j v => j = i ∧ q = { s.procs i with parent := v }
  | .cpuProc _ => False

namespace Write

variable {w : Write M}

theorem Sets.procs (h : w.Sets s i q) : (s.apply c w).procs = update s.procs i q := by
  cases w <;> simp_all [Sets, State.apply, State.setProc]

theorem Sets.cpus (h : w.Sets s i q) : (s.apply c w).cpus = s.cpus := by
  cases w <;> first | rfl | exact h.elim

theorem apply_kst : (s.apply c w).kst = s.kst := by cases w <;> rfl

theorem apply_locks : (s.apply c w).locks = s.locks := by cases w <;> rfl

theorem Sets.stackOf (h : w.Sets s i q) : (s.apply c w).stackOf c' = s.stackOf c' := by
  unfold State.stackOf
  rw [h.cpus, apply_kst]

end Write

theorem Inv.write {w : Write M} (h : Inv s) (hf : s.stackOf c = f :: rest)
    (he : exec s c f rest (.write w k) = some s') (hw : w.Sets s i q) (hchg : Change s c i f q)
    (hheld : (heldBy k).Perm f.held) (hst : StackOk (s.apply c w) c (k ++ rest))
    (hrun : q.state = .running → (s.procs i).state ≠ .running →
      (s.cpus c).on = none ∧ k ++ rest = [.scheduler (.pick i)])
    (hpick : ∀ j, f ≠ .scheduler (.pick j)) (hforks : ForksOk s (s.apply c w) f k) :
    Stays s s' c f rest := by
  cases he
  have hother : ∀ c', c' ≠ c → ((s.apply c w).setStack c (k ++ rest)).stackOf c' = s.stackOf c' := by
    intro c' hc
    rw [State.stackOf_setStack_of_ne _ hc, hw.stackOf]
    rw [hw.cpus]
    exact fun p hp => h.on_ne hc hp
  refine ⟨k, i, q, ?_⟩
  exact
    { lock := by
        refine h.toLockInv.same (by simp [Write.apply_locks]) (fun c' => ?_) (by simp [hw.cpus])
        by_cases hc : c' = c
        · subst hc
          rw [State.stackOf_setStack, hf, heldBy_append, heldBy_cons]
          exact hheld.append_right _
        · rw [hother c' hc]
      stackOf := hf
      stackOf' := by simp
      on := by simp [hw.cpus]
      proc := by simp [hw.cpus]
      context := by simp [hw.cpus]
      other := hother
      kst := fun r hr => by
        rw [State.setStack_kst_of_ne _ (by rw [hw.cpus]; exact hr), Write.apply_kst]
      procs := by simp [hw.procs]
      change := hchg
      stack := by simpa [StackOk, SchedulerPc.Holds] using hst
      occ := fun p hp => by
        simp only [State.setStack_procs, State.setStack_locks, Write.apply_locks, hw.procs]
        by_cases hpi : p = i
        · subst hpi
          rw [update_self]
          rcases h.occ c p hp with hr | hlk
          · rcases hchg.state_eq_or_held with heq | hl
            · exact .inl (heq.trans hr)
            · right
              rw [h.locks, hf]
              exact List.mem_append_left _ hl
          · exact .inr hlk
        · rw [update_of_ne hpi]
          exact h.occ c p hp
      pick := hpick
      run := hrun
      forks := by simpa [ForksOk, ForkPc.Holds] using hforks }

end Xv6Freezer
