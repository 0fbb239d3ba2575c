import Xv6Freezer.Kernel.Current

/-! # What freezing a process does

A process that is frozen and has left the CPU stays as it is until it is unfrozen, except that it may become
`RUNNABLE` and that its `killed` and `parent` may change. The flag outlives the process.
-/

namespace Xv6Freezer

open Function (update update_of_ne)

variable {M : Client} {init : M.Data → Prop} {s s' : State M} {c : CpuId} {p i : Slot}
  {f : Frame M} {q : Proc M} {rest : List (Frame M)} {a : Act M}

/-! ## One step, seen from one slot -/

theorem Stepped.slot (hs : Stepped s s' c f rest) (h : Inv s) (hf : s.stackOf c = f :: rest)
    (j : Slot) : Change s c j f (s'.procs j) ∨
      (s.cpus c).on = some j ∧ ∃ ret, f = .schedSwtch j ret ∧
        s'.procs j = { s.procs j with context := ret :: rest } := by
  have hsame : s'.procs j = s.procs j → Change s c j f (s'.procs j) := fun e => e ▸ .refl f
  cases hs with
  | stays hs =>
    obtain ⟨k, i, q, hs⟩ := hs
    by_cases hj : j = i
    · subst hj; rw [hs.procs_self]; exact .inl hs.change
    · exact .inl (hsame (hs.procs_of_ne hj))
  | current hf' hs => exact .inl (hsame (by rw [hs.procs]))
  | swtchTo hf' he =>
    cases he
    exact .inl (.refl f)
  | swtchOut hf' he =>
    rename_i p ret
    cases he
    by_cases hj : j = p
    · subst hj hf'
      have hst := h.stack_cons hf
      obtain ⟨p', hon⟩ := hst.on_some (fun _ => id) id
      obtain rfl : j = p' := (hst.ok hon).1.1
      exact .inr ⟨hon, ret, rfl, by simp⟩
    · exact .inl (hsame (by simp [update_of_ne hj]))

theorem go_of_heldBy (h : Inv s) (hf : s.stackOf c = f :: rest) (hheld : heldBy (f :: rest) ≠ [])
    (hbody : ∀ p, f ≠ .body p) (hs : kstep s c a = some s') :
    ∃ x instr, a = .go x ∧ event s (c, a) = frameEvent s x f ∧ code s c x f = some instr ∧
      exec s c f rest instr = some s' := by
  have hnoff : (s.cpus c).noff ≠ 0 := fun hn => by
    obtain ⟨h1, h2⟩ := h.held_of_noff hf hn
    simp [h1, h2] at hheld
  simp only [kstep, hf] at hs
  cases a with
  | go x =>
    obtain ⟨instr, hcode, he⟩ := Option.bind_eq_some_iff.mp hs
    exact ⟨x, instr, rfl, by simp [event, hf], hcode, he⟩
  | call k =>
    simp only at hs
    split at hs
    · exact absurd rfl (hbody _)
    · cases hs
  | intr m => simp [hnoff] at hs
  | timer => simp only [hnoff, if_false] at hs; split at hs <;> cases hs

theorem go_of_held (h : Inv s) (hf : s.stackOf c = f :: rest) (hheld : f.held ≠ [])
    (hs : kstep s c a = some s') : ∃ x, a = .go x ∧ event s (c, a) = frameEvent s x f := by
  obtain ⟨x, instr, hx, he, -⟩ := go_of_heldBy h hf (by simp [hheld])
    (fun p e => hheld (by rw [e]; rfl)) hs
  exact ⟨x, hx, he⟩

/-! ## The flag -/

theorem Change.frozen_of (h : Change s c i f q) :
    q.frozen = (s.procs i).frozen ∨
      (f = .scan (.sysFreeze (s.procs i).pid) i .visit ∧ (s.procs i).frozen = 0 ∧
        (s.procs i).state ≠ .unused ∧ (s.procs i).state ≠ .zombie) ∨
      f = .scan (.sysUnfreeze (s.procs i).pid) i .visit ∧ (s.procs i).frozen ≠ 0 := by
  cases h with
  | visit op =>
    cases op with
    | wakeup chan => left; simp only [Xv6Freezer.visit, wakeupVisit]; split <;> rfl
    | kill pid => left; simp only [Xv6Freezer.visit, killVisit]; (repeat' split) <;> rfl
    | sysFreeze pid =>
      simp only [Xv6Freezer.visit, sysFreezeVisit]
      split
      · rename_i hpid
        subst hpid
        split
        · rename_i hg
          exact .inr (.inl ⟨rfl, hg.2.2, hg.2.1, hg.1⟩)
        · exact .inl rfl
      · exact .inl rfl
    | sysUnfreeze pid =>
      simp only [Xv6Freezer.visit, sysUnfreezeVisit]
      split
      · rename_i hpid
        subst hpid
        split
        · rename_i hg
          exact .inr (.inr ⟨rfl, hg⟩)
        · exact .inl rfl
      · exact .inl rfl
  | _ => exact .inl rfl

/-- **One step and the flag of one slot**: it stays, or the pid in the slot is frozen or unfrozen. -/
theorem kstep_frozen (h : Inv s) (hs : kstep s c a = some s') (p : Slot) :
    (s'.procs p).frozen = (s.procs p).frozen ∨
      event s (c, a) = .freezes p (s.procs p).pid ∧ (s.procs p).frozen = 0 ∨
      event s (c, a) = .unfreezes p (s.procs p).pid ∧ (s.procs p).frozen ≠ 0 := by
  obtain ⟨f, rest, hf, hstep⟩ := kstep_stepped h hs
  rcases hstep.slot h hf p with hchg | ⟨-, ret, -, e⟩
  · rcases hchg.frozen_of with e | ⟨rfl, hz, hu, hzo⟩ | ⟨rfl, hz⟩
    · exact .inl e
    · obtain ⟨x, -, he⟩ := go_of_held h hf (by simp [Frame.held]) hs
      refine .inr (.inl ⟨he.trans ?_, hz⟩)
      simp [frameEvent, sysFreezeVisit, hz, hu, hzo]
    · obtain ⟨x, -, he⟩ := go_of_held h hf (by simp [Frame.held]) hs
      refine .inr (.inr ⟨he.trans ?_, hz⟩)
      simp [frameEvent, sysUnfreezeVisit, hz]
  · exact .inl (by rw [e])

theorem event_ne_picks {a : CpuId × Act M} (h : (s.procs p).frozen ≠ 0) :
    event s a ≠ .picks p := by
  intro he
  unfold event at he
  split at he
  · unfold frameEvent at he
    split at he <;> try (split at he <;> cases he)
    · rename_i hg
      exact h hg.1
    · cases he
  · cases he

/-! ## A frozen process that has left the CPU -/

/-- Only `killed`, `parent`, and the state from `USED` or `SLEEPING` to `RUNNABLE` may have changed. -/
structure Kept (q q' : Proc M) : Prop where
  fields : q' = { q with state := q'.state, killed := q'.killed, parent := q'.parent }
  state : q'.state = q.state ∨
    q'.state = .runnable ∧ (q.state = .used ∨ q.state = .sleeping)

theorem Kept.refl (q : Proc M) : Kept q q := ⟨rfl, .inl rfl⟩

theorem Kept.trans {q1 q2 q3 : Proc M} (h : Kept q1 q2) (h' : Kept q2 q3) : Kept q1 q3 := by
  refine ⟨by rw [h'.fields, h.fields], ?_⟩
  rcases h.state with e | ⟨e, hs⟩
  · rw [← e]; exact h'.state
  · refine .inr ⟨?_, hs⟩
    rcases h'.state with e' | ⟨e', -⟩
    · rw [e', e]
    · exact e'

theorem Kept.pid {q q' : Proc M} (h : Kept q q') : q'.pid = q.pid := by rw [h.fields]

/-- The process in slot `p` is frozen, no CPU runs it, and no `fork` builds it. -/
structure Off (s : State M) (p : Slot) : Prop where
  frozen : (s.procs p).frozen ≠ 0
  not_running : (s.procs p).state ≠ .running
  not_unused : (s.procs p).state ≠ .unused
  on : ∀ c, (s.cpus c).on ≠ some p
  proc : ∀ c, (s.cpus c).proc ≠ some p
  built : ∀ c r pc rest, s.stackOf c = .fork r pc :: rest → pc.claims = some p →
    pc.building = false

theorem ForkPc.held_of_building {pc : ForkPc} (hb : pc.building = true) (hc : pc.claims = some p) :
    (pc.held : List (Lock M)) = [.proc p] := by
  cases pc <;> simp_all [ForkPc.building, ForkPc.claims, ForkPc.held]

theorem Inv.off (h : Inv s) (hfree : s.locks (.proc p) = none) (hz : (s.procs p).frozen ≠ 0)
    (hr : (s.procs p).state ≠ .running) (hu : (s.procs p).state ≠ .unused) : Off s p where
  frozen := hz
  not_running := hr
  not_unused := hu
  on c hon := by
    have hl := h.locked_of_on hon hr
    rw [hfree] at hl
    cases hl
  proc c hp := by
    rcases h.occ c p hp with hr' | hl
    · exact hr hr'
    · rw [hfree] at hl
      cases hl
  built c r pc rest hf hc := by
    by_contra hb
    have hl : s.locks (.proc p) = some c := by
      rw [h.locks, hf, heldBy_cons, Frame.held,
        ForkPc.held_of_building ((Bool.not_eq_false _).mp hb) hc]
      exact .head _
    rw [hfree] at hl
    cases hl

theorem visit_kept (op : ScanOp) (hz : q.frozen ≠ 0) (hop : op ≠ .sysUnfreeze q.pid) :
    Kept q (visit op q).1 := by
  cases op with
  | wakeup chan =>
    simp only [visit, wakeupVisit]
    split
    · rename_i hg; exact ⟨rfl, .inr ⟨rfl, .inr hg.1⟩⟩
    · exact .refl q
  | kill pid =>
    simp only [visit, killVisit]
    split
    · split
      · rename_i hg; exact ⟨rfl, .inr ⟨rfl, .inr hg⟩⟩
      · exact ⟨rfl, .inl rfl⟩
    · exact .refl q
  | sysFreeze pid =>
    simp only [visit, sysFreezeVisit, hz, and_false, if_false]
    split <;> exact .refl q
  | sysUnfreeze pid =>
    have hne : q.pid ≠ pid := fun e => hop (by rw [e])
    simp only [visit, sysUnfreezeVisit, if_neg hne]
    exact .refl q

theorem Off.kept_of_change (ho : Off s p) (h : Inv s) (hf : s.stackOf c = f :: rest)
    (hchg : Change s c p f q) (hun : f ≠ .scan (.sysUnfreeze (s.procs p).pid) p .visit)
    (hq : q.state ≠ .unused) : Kept (s.procs p) q := by
  have hbuild : ∀ r pc, f = .fork r pc → pc.claims = some p → pc.building = false := by
    rintro r pc rfl hc
    exact ho.built c r pc rest hf hc
  cases hchg with
  | refl => exact .refl _
  | parent v _ => exact ⟨rfl, .inl rfl⟩
  | visit op => exact visit_kept op ho.frozen fun e => hun (by rw [e])
  | priv v hon => exact absurd hon (ho.on c)
  | setkilled hon _ => exact absurd hon (ho.on c)
  | yield hon => exact absurd hon (ho.on c)
  | sleep chan hon => exact absurd hon (ho.on c)
  | tidy hon => exact absurd hon (ho.on c)
  | zombie status hon => exact absurd hon (ho.on c)
  | pick found hz _ => exact absurd hz ho.frozen
  | alloc hu => exact absurd hu ho.not_unused
  | run pid => exact ⟨rfl, .inr ⟨rfl, .inl (StackOk.fork_holds h hf _ _ rfl p rfl).1⟩⟩
  | reap hz => exact absurd rfl hq
  | _ => cases hbuild _ _ rfl rfl

theorem kstep_unused (h : Inv s) (hs : kstep s c a = some s') (hf : s.stackOf c = f :: rest)
    (hchg : Change s c p f (s'.procs p)) (hu : (s'.procs p).state = .unused) :
    (s.procs p).state = .unused ∨ event s (c, a) = .reaps p ∨ ∃ r, f = .fork r (.undo p) := by
  generalize hq : s'.procs p = q at hchg hu
  cases hchg with
  | visit op =>
    rcases visit_state op (s.procs p) with e | ⟨-, e⟩
    · exact .inl (e.symm.trans hu)
    · rw [e] at hu; cases hu
  | undo => exact .inr (.inr ⟨_, rfl⟩)
  | reap hz =>
    rename_i r addr
    obtain ⟨x, rfl, he⟩ := go_of_held h hf (by simp [Frame.held, WaitPc.held]) hs
    refine .inr (.inl (he.trans ?_))
    simp only [frameEvent]
    refine if_pos ⟨hz, fun hx => ?_⟩
    -- `copyout` failed: the slot is not written
    simp only [kstep, hf, code, waitCode, hz, if_true, if_pos hx, Option.bind_some] at hs
    cases hs
    have hst := congrArg Proc.state hq
    simp [State.apply, freeproc, hz] at hst
  | _ => first | exact .inl hu | cases hu

section

variable (hs : Stepped s s' c f rest) (h : Inv s) (hf : s.stackOf c = f :: rest)

include hs h hf

theorem Stepped.on_of {c' : CpuId} (hon : (s'.cpus c').on = some p) :
    (s.cpus c').on = some p ∨ (s.procs p).state = .running := by
  cases hs with
  | stays hs =>
    obtain ⟨k, i, q, hs⟩ := hs
    exact .inl (by rw [← hs.on]; exact hon)
  | current hf' hs =>
    by_cases hc : c' = c
    · subst hc; rw [hs.on'] at hon; cases hon
    · rw [hs.other c' hc] at hon; exact .inl hon
  | swtchTo hf' he =>
    subst hf'
    cases he
    by_cases hc : c' = c
    · subst hc
      rename_i i
      obtain rfl : i = p := by simpa using hon
      exact .inr (h.stack_cons hf).of_scheduler.2.2.1
    · exact .inl (by simpa [update_of_ne hc] using hon)
  | swtchOut hf' he =>
    cases he
    by_cases hc : c' = c
    · subst hc; simp at hon
    · exact .inl (by simpa [update_of_ne hc] using hon)

theorem Stepped.proc_of {c' : CpuId} (hp : (s'.cpus c').proc = some p) :
    (s.cpus c').proc = some p ∨ (s.procs p).state = .running := by
  cases hs with
  | stays hs =>
    obtain ⟨k, i, q, hs⟩ := hs
    exact .inl (by rw [← hs.proc]; exact hp)
  | current hf' hs =>
    by_cases hc : c' = c
    · subst hc
      rw [hs.cur'] at hp
      obtain ⟨rfl, -⟩ := hs.pick_of_cur hp
      exact .inr (hs.holds h).1.1
    · rw [hs.other c' hc] at hp; exact .inl hp
  | swtchTo hf' he | swtchOut hf' he =>
    cases he
    by_cases hc : c' = c
    · subst hc; exact .inl (by simpa using hp)
    · exact .inl (by simpa [update_of_ne hc] using hp)

theorem Stepped.stackOf_of_ne {c' : CpuId} (hc : c' ≠ c) : s'.stackOf c' = s.stackOf c' := by
  cases hs with
  | stays hs =>
    obtain ⟨k, i, q, hs⟩ := hs
    exact hs.other c' hc
  | current _ hs => exact hs.stackOf_of_ne hc
  | swtchTo hf' he =>
    rename_i i
    subst hf'
    have hproc : (s.cpus c).proc = some i := (h.stack_cons hf).of_scheduler.2.1
    cases he
    simp only [State.stackOf, update_of_ne hc]
    cases hon : (s.cpus c').on with
    | none => rfl
    | some p' =>
      have hne : p' ≠ i := by
        rintro rfl
        exact hc (h.uniq c' c p' (h.busy c' p' hon).1 hproc)
      simp [update_of_ne hne]
  | swtchOut hf' he =>
    rename_i p' ret
    subst hf'
    have hst := h.stack_cons hf
    obtain ⟨p'', hon''⟩ := hst.on_some (fun _ => id) id
    obtain rfl : p' = p'' := (hst.ok hon'').1.1
    cases he
    simp only [State.stackOf, update_of_ne hc]
    cases hon : (s.cpus c').on with
    | none => rfl
    | some p1 =>
      have hne : p1 ≠ p' := by
        rintro rfl
        exact h.on_ne hc hon'' hon
      simp [update_of_ne hne]

end

theorem Stepped.building_of (hs : Stepped s s' c f rest) (h : Inv s) (h' : Inv s')
    (hf : s.stackOf c = f :: rest) {c' : CpuId} {r : Slot} {pc : ForkPc} {rest' : List (Frame M)}
    (hf' : s'.stackOf c' = .fork r pc :: rest') (hc : pc.claims = some p)
    (hb : pc.building = true) :
    (∃ r0 pc0 rest0, s.stackOf c' = .fork r0 pc0 :: rest0 ∧ pc0.claims = some p ∧
      pc0.building = true) ∨ c' = c ∧ (s.procs p).state = .unused := by
  have hlock : Lock.proc p ∈ heldBy (s'.stackOf c') := by
    rw [hf', heldBy_cons, Frame.held, ForkPc.held_of_building hb hc]
    exact .head _
  by_cases hcc : c' = c
  · subst hcc
    cases hs with
    | stays hs =>
      obtain ⟨k, i, q, hs⟩ := hs
      rw [hs.stackOf'] at hf' hlock
      cases k with
      | nil =>
        -- below a frame no process lock is held
        exact absurd hlock ((h.stack_cons hf).noProcLock_below p)
      | cons g k =>
        obtain ⟨rfl, -⟩ := List.cons.inj hf'
        rcases (hs.forks r pc (.head _)).2 p hc with ⟨r0, pc0, rfl, hc0, hb0⟩ | hu
        · exact .inl ⟨r0, pc0, rest, hf, hc0, hb0 hb⟩
        · exact .inr ⟨rfl, hu⟩
    | current _ hs => rw [hs.stack'] at hf'; cases hf'
    | swtchTo hf0 he =>
      -- the process that continues would have a child in its own slot
      rename_i i
      exfalso
      subst hf0
      have hrun : (s.procs i).state = .running := (h.stack_cons hf).of_scheduler.2.2.1
      have hu := (StackOk.fork_holds h' hf' r pc rfl p hc).1
      have hl := (h'.locks c' _).mpr hlock
      cases he
      have hm := (h.locks c' _).mp hl
      rw [hf] at hm
      obtain rfl : p = i := by
        simpa [Frame.held, SchedulerPc.held, (h.stack_cons hf).of_scheduler.2.2.2] using hm
      rw [show (s.procs p).state = .used from hu] at hrun
      cases hrun
    | swtchOut hf0 he =>
      -- `scheduler` continues here
      obtain ⟨p', hon⟩ := (h'.stack_cons hf').on_some (fun _ => id) id
      cases he
      simp at hon
  · rw [hs.stackOf_of_ne h hf hcc] at hf'
    exact .inl ⟨r, pc, rest', hf', hc, hb⟩

/-- **A step that keeps the slot of a frozen process that has left the CPU keeps it off.** -/
theorem Off.step (ho : Off s p) (h : Inv s) (hs : Stepped s s' c f rest)
    (hf : s.stackOf c = f :: rest) (hkept : Kept (s.procs p) (s'.procs p)) : Off s' p := by
  have hst : ∀ x, x ≠ .runnable → (s.procs p).state ≠ x → (s'.procs p).state ≠ x := by
    intro x hx hne e
    rcases hkept.state with e' | ⟨e', -⟩
    · exact hne (e'.symm.trans e)
    · exact hx (e.symm.trans e')
  exact
    { frozen := by rw [hkept.fields]; exact ho.frozen
      not_running := hst _ (by simp) ho.not_running
      not_unused := hst _ (by simp) ho.not_unused
      on := fun c' hon => (hs.on_of h hf hon).elim (ho.on c') ho.not_running
      proc := fun c' hp => (hs.proc_of h hf hp).elim (ho.proc c') ho.not_running
      built := fun c' r pc rest' hf' hc => by
        by_contra hb
        rcases hs.building_of h (hs.inv h hf) hf hf' hc ((Bool.not_eq_false _).mp hb) with
          ⟨r0, pc0, rest0, hf0, hc0, hb0⟩ | ⟨-, hu⟩
        · rw [ho.built c' r0 pc0 rest0 hf0 hc0] at hb0
          cases hb0
        · exact ho.not_unused hu }

/-- **One step and a frozen process that has left the CPU**: its slot is kept and no CPU runs it. -/
theorem kstep_off (ho : Off s p) (h : Inv s) (hs : kstep s c a = some s')
    (hun : event s (c, a) ≠ .unfreezes p (s.procs p).pid) (hreap : event s (c, a) ≠ .reaps p) :
    Off s' p ∧ Kept (s.procs p) (s'.procs p) := by
  obtain ⟨f, rest, hf, hstep⟩ := kstep_stepped h hs
  have hkept : Kept (s.procs p) (s'.procs p) := by
    rcases hstep.slot h hf p with hchg | ⟨hon, -⟩
    · refine ho.kept_of_change h hf hchg ?_ fun hu => ?_
      · rintro rfl
        obtain ⟨x, -, he⟩ := go_of_held h hf (by simp [Frame.held]) hs
        refine hun (he.trans ?_)
        simp [frameEvent, sysUnfreezeVisit, ho.frozen]
      · rcases kstep_unused h hs hf hchg hu with hu' | he | ⟨r, rfl⟩
        · exact ho.not_unused hu'
        · exact hreap he
        · cases ho.built c r _ rest hf rfl
    · exact absurd hon (ho.on c)
  exact ⟨ho.step h hstep hf hkept, hkept⟩

/-! ## A frozen process that still runs -/

@[simp] theorem visit_pid (op : ScanOp) (q : Proc M) : (visit op q).1.pid = q.pid := by
  cases op <;> simp only [visit, wakeupVisit, killVisit, sysFreezeVisit, sysUnfreezeVisit] <;>
    (repeat' split) <;> rfl

theorem Change.live_stays (hchg : Change s c i f q) (hold : ∀ r pc, f = .fork r pc → pc.Holds s)
    (hl : (s.procs i).state.Live) (hq : q.state ≠ .unused) :
    q.state.Live ∧ q.pid = (s.procs i).pid := by
  have hnu : (s.procs i).state ≠ .used := by intro e; simp [ProcState.Live, e] at hl
  have hclaim : ∀ r pc, f = .fork r pc → pc.claims ≠ some i := fun r pc e hc =>
    hnu (hold r pc e i hc).1
  cases hchg with
  | visit op =>
    refine ⟨?_, visit_pid op _⟩
    rcases visit_state op (s.procs i) with e | ⟨-, e⟩
    · rw [e]; exact hl
    · exact .inl e
  | yield hon => exact ⟨.inl rfl, rfl⟩
  | sleep chan hon => exact ⟨.inr (.inl rfl), rfl⟩
  | zombie status hon => exact ⟨.inr (.inr (.inr rfl)), rfl⟩
  | pick found _ _ => exact ⟨.inr (.inr (.inl rfl)), rfl⟩
  | alloc hu => simp [ProcState.Live, hu] at hl
  | trapframe | pagetable | context | copy => exact absurd rfl (hclaim _ _ rfl)
  | undo => exact absurd rfl hq
  | run pid => exact absurd rfl (hclaim _ _ rfl)
  | reap hz => exact absurd rfl hq
  | _ => exact ⟨hl, rfl⟩

/-- **One step and a frozen process**: it stays frozen and keeps its pid. -/
theorem kstep_frozen_live (h : Inv s) (hs : kstep s c a = some s') (hz : (s.procs p).frozen ≠ 0)
    (hl : (s.procs p).state.Live) (hun : event s (c, a) ≠ .unfreezes p (s.procs p).pid)
    (hreap : event s (c, a) ≠ .reaps p) :
    (s'.procs p).frozen ≠ 0 ∧ (s'.procs p).state.Live ∧ (s'.procs p).pid = (s.procs p).pid := by
  refine ⟨?_, ?_⟩
  · rcases kstep_frozen h hs p with e | ⟨-, e⟩ | ⟨e, -⟩
    · rw [e]; exact hz
    · exact absurd e hz
    · exact absurd e hun
  · obtain ⟨f, rest, hf, hstep⟩ := kstep_stepped h hs
    have hold := StackOk.fork_holds h hf
    rcases hstep.slot h hf p with hchg | ⟨-, ret, -, e⟩
    · refine hchg.live_stays hold hl fun hu => ?_
      rcases kstep_unused h hs hf hchg hu with hu' | he | ⟨r, rfl⟩
      · simp [ProcState.Live, hu'] at hl
      · exact hreap he
      · have hused := (hold r _ rfl p rfl).1
        simp [ProcState.Live, hused] at hl
    · rw [e]; exact ⟨hl, rfl⟩

/-! ## Runs -/

/-- The steps that neither unfreeze slot `p`, holding `pid`, nor free it. -/
def Undisturbed (p : Slot) (pid : Int) (s : State M) (a : CpuId × Act M) : Prop :=
  event s a ≠ .unfreezes p pid ∧ event s a ≠ .reaps p

/-- **A frozen process that has left the CPU, over a run**: its slot is kept. -/
theorem run_off (h : Inv s) (ho : Off s p)
    (hr : (kernel M init).RunIf (Undisturbed p (s.procs p).pid) s s') :
    Inv s' ∧ Off s' p ∧ Kept (s.procs p) (s'.procs p) := by
  refine hr.carry (I := Inv) (P := fun t => Off t p ∧ Kept (s.procs p) (t.procs p)) h
    ⟨ho, .refl _⟩ (fun t a t' hi hs => kstep_inv hi hs) ?_
  rintro t ⟨c, a⟩ t' hi ⟨hot, hk⟩ ⟨hun, hreap⟩ hs
  obtain ⟨ho', hk'⟩ := kstep_off hot hi hs (by rw [hk.pid]; exact hun) hreap
  exact ⟨ho', hk.trans hk'⟩

theorem run_frozen (h : Inv s) (hz : (s.procs p).frozen ≠ 0) (hl : (s.procs p).state.Live)
    (hr : (kernel M init).RunIf (Undisturbed p (s.procs p).pid) s s') :
    Inv s' ∧ (s'.procs p).frozen ≠ 0 ∧ (s'.procs p).state.Live ∧
      (s'.procs p).pid = (s.procs p).pid := by
  refine hr.carry (I := Inv) (P := fun t => (t.procs p).frozen ≠ 0 ∧ (t.procs p).state.Live ∧
    (t.procs p).pid = (s.procs p).pid) h ⟨hz, hl, rfl⟩ (fun t a t' hi hs => kstep_inv hi hs) ?_
  rintro t ⟨c, a⟩ t' hi ⟨hz', hl', hpid⟩ ⟨hun, hreap⟩ hs
  obtain ⟨hz1, hl1, hpid1⟩ := kstep_frozen_live hi hs hz' hl' (by rw [hpid]; exact hun) hreap
  exact ⟨hz1, hl1, hpid1.trans hpid⟩

theorem run_off_of_ne_zombie (h : Inv s) (ho : Off s p) (hz : (s.procs p).state ≠ .zombie)
    (hr : (kernel M init).RunIf (fun t a => event t a ≠ .unfreezes p (s.procs p).pid) s s') :
    Off s' p ∧ Kept (s.procs p) (s'.procs p) := by
  have hne : ∀ q : Proc M, Kept (s.procs p) q → q.state ≠ .zombie := by
    intro q hk e
    rcases hk.state with e' | ⟨e', -⟩
    · exact hz (e'.symm.trans e)
    · rw [e] at e'; cases e'
  refine (hr.carry (I := Inv) (P := fun t => Off t p ∧ Kept (s.procs p) (t.procs p)) h
    ⟨ho, .refl _⟩ (fun t a t' hi hs => kstep_inv hi hs) ?_).2
  rintro t ⟨c, a⟩ t' hi ⟨hot, hk⟩ hun hs
  obtain ⟨ho', hk'⟩ := kstep_off hot hi hs (by rw [hk.pid]; exact hun) fun he => by
    obtain ⟨r, addr, rest, -, hzo⟩ := event_reaps he
    exact hne _ hk hzo
  exact ⟨ho', hk.trans hk'⟩

/-- **Freezing preserves a process**, from a moment when its lock is free. Unless it is `RUNNING` or a
`ZOMBIE`, only its state, `killed` and `parent` can change until a `sys_unfreeze` of its pid succeeds, and it
does not run. If it is `RUNNING`, then until it is unfrozen or freed no scheduler picks it, and once it has
left the CPU it does not run again. -/
theorem frozen_preserved (h : (kernel M init).Reachable s) (hfree : s.locks (.proc p) = none)
    (hz : (s.procs p).frozen ≠ 0) (hu : (s.procs p).state ≠ .unused) :
    ((s.procs p).state ≠ .running → (s.procs p).state ≠ .zombie →
      ∀ s', (kernel M init).RunIf (fun t a => event t a ≠ .unfreezes p (s.procs p).pid) s s' →
        ((s'.procs p).state = .used ∨ (s'.procs p).state = .sleeping ∨
          (s'.procs p).state = .runnable) ∧
        (s'.procs p).frozen ≠ 0 ∧ Kept (s.procs p) (s'.procs p)) ∧
    ((s.procs p).state = .running →
      ∀ s', (kernel M init).RunIf (Undisturbed p (s.procs p).pid) s s' →
        (s'.procs p).frozen ≠ 0 ∧ (∀ a, event s' a ≠ .picks p) ∧
        (s'.locks (.proc p) = none → (s'.procs p).state ≠ .running →
          ((s'.procs p).state = .runnable ∨ (s'.procs p).state = .sleeping ∨
            (s'.procs p).state = .zombie) ∧
          ∀ s'', (kernel M init).RunIf (Undisturbed p (s.procs p).pid) s' s'' →
            (s''.procs p).state ≠ .running ∧
            ((s'.procs p).state = .zombie → (s''.procs p).state = .zombie))) := by
  have hi := reachable_inv h
  refine ⟨fun hr hzo s' hrun => ?_, fun hr s' hrun => ?_⟩
  · obtain ⟨ho', hk⟩ := run_off_of_ne_zombie hi (hi.off hfree hz hr hu) hzo hrun
    refine ⟨?_, ho'.frozen, hk⟩
    rcases hk.state with e | ⟨e, -⟩
    · have hnf := hi.notFrozen p
      rw [e]
      cases hst : (s.procs p).state <;> simp_all
    · exact .inr (.inr e)
  · obtain ⟨hi', hz', hl, hpid⟩ := run_frozen hi hz (.inr (.inr (.inl hr))) hrun
    refine ⟨hz', fun a => event_ne_picks hz', fun hfree' hr' => ⟨?_, fun s'' hrun' => ?_⟩⟩
    · rcases hl with e | e | e | e
      · exact .inl e
      · exact .inr (.inl e)
      · exact absurd e hr'
      · exact .inr (.inr e)
    · have hu' : (s'.procs p).state ≠ .unused := fun e => by simp [ProcState.Live, e] at hl
      rw [← hpid] at hrun'
      obtain ⟨-, ho, hk⟩ := run_off hi' (hi'.off hfree' hz' hr' hu') hrun'
      refine ⟨ho.not_running, fun hzo => ?_⟩
      rcases hk.state with e | ⟨-, e | e⟩
      · exact e.trans hzo
      · rw [hzo] at e; cases e
      · rw [hzo] at e; cases e

/-- The first process has forked a child into slot 1, with pid 2. -/
def forkTrace : List (CpuId × Act idleClient) :=
  goes 0 9 ++ [(0, .call .fork)] ++ goes 0 16

def freezeTrace : List (CpuId × Act idleClient) := [(0, .call (.sysFreeze 2))] ++ goes 0 6

/-- A child frozen before it first ran, over a round of another scheduler; and one frozen while it runs on
another CPU, which the timer then takes off it. -/
theorem frozen_preserved_child :
    (∃ s s', idleKernel.Reachable s ∧ (s.procs 1).state = .runnable ∧ (s.procs 1).frozen ≠ 0 ∧
      idleKernel.RunIf (fun t a => event t a ≠ .unfreezes 1 (s.procs 1).pid) s s' ∧
      Kept (s.procs 1) (s'.procs 1)) ∧
    ∃ s s', idleKernel.Reachable s ∧ (s.procs 1).state = .running ∧ (s.procs 1).frozen ≠ 0 ∧
      idleKernel.RunIf (Undisturbed 1 (s.procs 1).pid) s s' ∧ (s'.procs 1).state = .runnable ∧
      ∀ a, event s' a ≠ .picks 1 := by
  constructor
  · obtain ⟨s, s', hs, hrun, hp⟩ := Lib.Lts.reachable_run_of_execs (forkTrace ++ freezeTrace)
      (goes 1 7) (fun t a => decide (event t a ≠ .unfreezes 1 2))
      (fun s _ : State idleClient => decide (s.locks (.proc 1) = none ∧ (s.procs 1).frozen ≠ 0 ∧
        (s.procs 1).state = .runnable ∧ (s.procs 1).pid = 2)) idleKernel_init (by decide)
    obtain ⟨hfree, hz, hr, hpid⟩ := of_decide_eq_true hp
    have hrun' : idleKernel.RunIf (fun t a => event t a ≠ .unfreezes 1 (s.procs 1).pid) s s' :=
      hrun.mono fun t a h => by rw [hpid]; exact of_decide_eq_true h
    exact ⟨s, s', hs, hr, hz, hrun', ((frozen_preserved hs hfree hz (by simp [hr])).1 (by simp [hr])
      (by simp [hr]) s' hrun').2.2⟩
  · obtain ⟨s, s', hs, hrun, hp⟩ := Lib.Lts.reachable_run_of_execs
      (forkTrace ++ goes 1 10 ++ freezeTrace) ([(1, .timer)] ++ goes 1 6)
      (fun t a => decide (event t a ≠ .unfreezes 1 2 ∧ event t a ≠ .reaps 1))
      (fun s s' : State idleClient => decide (s.locks (.proc 1) = none ∧ (s.procs 1).frozen ≠ 0 ∧
        (s.procs 1).state = .running ∧ (s.procs 1).pid = 2 ∧ (s'.procs 1).state = .runnable))
      idleKernel_init (by decide)
    obtain ⟨hfree, hz, hr, hpid, hr'⟩ := of_decide_eq_true hp
    have hrun' : idleKernel.RunIf (Undisturbed 1 (s.procs 1).pid) s s' :=
      hrun.mono fun t a h => by
        obtain ⟨hun, hreap⟩ := of_decide_eq_true h
        exact ⟨by rw [hpid]; exact hun, hreap⟩
    exact ⟨s, s', hs, hr, hz, hrun', hr',
      ((frozen_preserved hs hfree hz (by simp [hr])).2 hr s' hrun').2.1⟩

/-! ## The flag of a free slot -/

/-- The steps that free no process whose flag is still set. -/
def ReapsThawed (s : State M) (a : CpuId × Act M) : Prop :=
  ∀ p, event s a = .reaps p → (s.procs p).frozen = 0

/-- Free slots and slots under construction are not frozen. -/
structure Thawed (s : State M) : Prop where
  unused : ∀ p, (s.procs p).state = .unused → (s.procs p).frozen = 0
  building : ∀ c r pc rest p, s.stackOf c = .fork r pc :: rest → pc.claims = some p →
    pc.building = true → (s.procs p).frozen = 0

theorem kstep_frozen_of_held {c' : CpuId} {f' : Frame M} {rest' : List (Frame M)} (h : Inv s)
    (hs : kstep s c a = some s') (hf' : s.stackOf c' = f' :: rest') (hl : .proc p ∈ f'.held)
    (hscan : ¬ f'.isScan) : (s'.procs p).frozen = (s.procs p).frozen := by
  obtain ⟨f, rest, hf, hstep⟩ := kstep_stepped h hs
  have hnot : ∀ op, f ≠ .scan op p .visit := by
    rintro op rfl
    have hm : Lock.proc p ∈ heldBy (s.stackOf c) := by simp [hf, Frame.held]
    have hm' : Lock.proc p ∈ heldBy (s.stackOf c') := by
      rw [hf']; exact List.mem_append_left _ hl
    by_cases hc : c' = c
    · subst hc
      rw [hf] at hf'
      obtain ⟨rfl, -⟩ := List.cons.inj hf'
      exact hscan trivial
    · exact h.not_mem_of_ne hm hc hm'
  rcases hstep.slot h hf p with hchg | ⟨-, ret, -, e⟩
  · rcases hchg.frozen_of with e | ⟨rfl, -⟩ | ⟨rfl, -⟩
    · exact e
    · exact absurd rfl (hnot _)
    · exact absurd rfl (hnot _)
  · rw [e]

theorem kstep_frozen_zero (h : Inv s) (hs : kstep s c a = some s') (hz : (s.procs p).frozen = 0)
    (hst : (s.procs p).state = .unused ∨ (s.procs p).state = .zombie) :
    (s'.procs p).frozen = 0 := by
  obtain ⟨f, rest, hf, hstep⟩ := kstep_stepped h hs
  rcases hstep.slot h hf p with hchg | ⟨-, ret, -, e⟩
  · rcases hchg.frozen_of with e | ⟨-, -, hu, hzo⟩ | ⟨-, hnz⟩
    · exact e.trans hz
    · exact (hst.elim hu hzo).elim
    · exact absurd hz hnz
  · rw [e]; exact hz

theorem kstep_thawed (ht : Thawed s) (h : Inv s) (hs : kstep s c a = some s')
    (hok : ReapsThawed s (c, a)) : Thawed s' := by
  obtain ⟨f, rest, hf, hstep⟩ := kstep_stepped h hs
  have hbuild : ∀ {c' r pc rest' p}, s.stackOf c' = .fork r pc :: rest' → pc.claims = some p →
      pc.building = true → (s'.procs p).frozen = 0 := by
    intro c' r pc rest' p hf' hc hb
    rw [kstep_frozen_of_held h hs hf' (by simp [Frame.held, ForkPc.held_of_building hb hc]) id]
    exact ht.building c' r pc rest' p hf' hc hb
  refine ⟨fun p hu => ?_, fun c' r pc rest' p hf' hc hb => ?_⟩
  · rcases hstep.slot h hf p with hchg | ⟨-, ret, -, e⟩
    · rcases kstep_unused h hs hf hchg hu with hu' | he | ⟨r, rfl⟩
      · exact kstep_frozen_zero h hs (ht.unused p hu') (.inl hu')
      · obtain ⟨r, addr, rest', -, hz⟩ := event_reaps he
        exact kstep_frozen_zero h hs (hok p he) (.inr hz)
      · exact hbuild hf rfl rfl
    · rw [e] at hu ⊢
      exact ht.unused p hu
  · rcases hstep.building_of h (hstep.inv h hf) hf hf' hc hb with ⟨r0, pc0, rest0, hf0, hc0, hb0⟩ | ⟨-, hu⟩
    · exact hbuild hf0 hc0 hb0
    · exact kstep_frozen_zero h hs (ht.unused p hu) (.inl hu)

theorem boot_thawed (tf pt cwd : Nat) (d : M.Data) : Thawed (boot tf pt cwd d) := by
  refine ⟨fun p _ => ?_, fun c r pc rest p hf => ?_⟩
  · by_cases hp : p = 0
    · subst hp; simp [boot, userinit, procinit]
    · simp [boot, update_of_ne hp, procinit]
  · simp [boot, State.stackOf] at hf

/-- The process with this pid in this slot, if it is there, is not frozen. -/
def NotFrozen (s : State M) (p : Slot) (pid : Int) : Prop :=
  (s.procs p).pid = pid → (s.procs p).frozen = 0

theorem Change.pid_of (h : Change s c i f q) :
    q.pid = (s.procs i).pid ∨ (s.procs i).state = .unused ∨ q.state = .unused := by
  cases h with
  | visit op => exact .inl (visit_pid op _)
  | alloc hu => exact .inr (.inl hu)
  | undo | reap => exact .inr (.inr rfl)
  | _ => exact .inl rfl

theorem kstep_notFrozen {pid : Int} (ht : Thawed s) (h : Inv s) (hs : kstep s c a = some s')
    (hok : ReapsThawed s (c, a)) (hno : event s (c, a) ≠ .freezes p pid)
    (hn : NotFrozen s p pid) : NotFrozen s' p pid := by
  intro hpid
  obtain ⟨f, rest, hf, hstep⟩ := kstep_stepped h hs
  have hcases : (s'.procs p).pid = (s.procs p).pid ∨ (s.procs p).state = .unused ∨
      (s'.procs p).state = .unused := by
    rcases hstep.slot h hf p with hchg | ⟨-, ret, -, e⟩
    · exact hchg.pid_of
    · exact .inl (by rw [e])
  rcases hcases with e | hu | hu
  · have hz := hn (e.symm.trans hpid)
    rcases kstep_frozen h hs p with e' | ⟨he, -⟩ | ⟨-, hnz⟩
    · exact e'.trans hz
    · rw [← e, hpid] at he
      exact absurd he hno
    · exact absurd hz hnz
  · exact kstep_frozen_zero h hs (ht.unused p hu) (.inl hu)
  · exact (kstep_thawed ht h hs hok).unused p hu

theorem kstep_creates {np : Slot} {pid : Int} (he : event s (c, a) = .creates np pid)
    (hs : kstep s c a = some s') :
    ∃ r rest, s.stackOf c = .fork r (.copy np) :: rest ∧ (s.procs np).pid = pid ∧
      s'.procs np = copyParent (s.procs r) (s.procs np) := by
  unfold event at he
  split at he
  · rename_i f rest x hf hx
    obtain rfl : a = .go x := hx
    unfold frameEvent at he
    split at he <;> try (split at he <;> cases he)
    · rename_i r hx
      refine ⟨r, rest, hf, rfl, ?_⟩
      simp only [kstep, hf, code, forkCode, if_neg hx, Option.bind_some] at hs
      cases hs
      simp [State.apply, State.setProc]
    · cases he
  · cases he

theorem kstep_reaps (he : event s (c, a) = .reaps p) (hs : kstep s c a = some s') :
    s'.procs p = freeproc (s.procs p) := by
  unfold event at he
  split at he
  · rename_i f rest x hf hx
    obtain rfl : a = .go x := hx
    unfold frameEvent at he
    split at he <;> try (split at he <;> cases he)
    · rename_i hz
      simp only [kstep, hf, code, waitCode, if_pos hz.1, if_neg hz.2, Option.bind_some] at hs
      cases hs
      simp [State.apply, State.setProc]
    · cases he
  · cases he

/-- **Free slots are not frozen when no frozen process is freed**: then a new process is not frozen until a
`sys_freeze` of its pid succeeds. No step may drop the condition, since a freed slot keeps its flag. -/
theorem unused_not_frozen (h : (kernel M init).ReachableIf ReapsThawed s) :
    (∀ p, (s.procs p).state = .unused → (s.procs p).frozen = 0) ∧
    (∀ a np pid s₁, event s a = .creates np pid → (kernel M init).step s a = some s₁ →
      (s₁.procs np).pid = pid ∧ (s₁.procs np).frozen = 0 ∧
      ∀ s₂, (kernel M init).RunIf (fun t a => ReapsThawed t a ∧ event t a ≠ .freezes np pid) s₁ s₂ →
        (s₂.procs np).pid = pid → (s₂.procs np).frozen = 0) ∧
    ∀ a p s₁, event s a = .reaps p → (kernel M init).step s a = some s₁ →
      (s₁.procs p).state = .unused ∧ ((s₁.procs p).frozen = 0 ↔ (s.procs p).frozen = 0) := by
  obtain ⟨hi, ht⟩ : Inv s ∧ Thawed s := by
    refine h.invariant (I := fun t => Inv t ∧ Thawed t) (fun t ht => ?_) ?_
    · obtain ⟨tf, pt, cwd, d, -, rfl⟩ := ht
      exact ⟨boot_inv tf pt cwd d, boot_thawed tf pt cwd d⟩
    · rintro t ⟨c, a⟩ t' ⟨hi, ht⟩ hok hs
      exact ⟨kstep_inv hi hs, kstep_thawed ht hi hs hok⟩
  refine ⟨ht.unused, fun ⟨c, a⟩ np pid s₁ he hs => ?_, fun ⟨c, a⟩ p s₁ he hs => ?_⟩
  · obtain ⟨r, rest, hf, hpid, hs₁⟩ := kstep_creates he hs
    have hz : (s₁.procs np).frozen = 0 := by
      rw [hs₁]; exact ht.building c r _ rest np hf rfl rfl
    have hp : (s₁.procs np).pid = pid := by rw [hs₁]; exact hpid
    refine ⟨hp, hz, fun s₂ hrun => ?_⟩
    have hok : ReapsThawed s (c, a) := fun p hp => by rw [he] at hp; cases hp
    refine (hrun.carry (I := Inv) (P := fun t => Thawed t ∧ NotFrozen t np pid) (kstep_inv hi hs)
      ⟨kstep_thawed ht hi hs hok, fun _ => hz⟩ (fun t a t' hi hs => kstep_inv hi hs) ?_).2.2
    rintro t ⟨c, a⟩ t' hi ⟨ht, hn⟩ ⟨hok, hno⟩ hs
    exact ⟨kstep_thawed ht hi hs hok, kstep_notFrozen ht hi hs hok hno hn⟩
  · rw [kstep_reaps he hs]
    exact ⟨rfl, Iff.rfl⟩

/-- The child exits without having been frozen, and its parent waits for it. -/
def exitTrace : List (CpuId × Act idleClient) :=
  forkTrace ++ goes 1 10 ++ [(1, .call (.exit 0))] ++ goes 1 286 ++ [(0, .call (.wait 0))] ++
    goes 0 5

set_option maxRecDepth 100000 in
/-- The slot of a process that exits unfrozen is `UNUSED` with the flag cleared. -/
theorem unused_not_frozen_after_exit : ∃ s, idleKernel.ReachableIf ReapsThawed s ∧
    (s.procs 1).state = .unused ∧ (s.procs 1).frozen = 0 := by
  obtain ⟨s, hs, hp⟩ := Lib.Lts.reachableIf_of_execs exitTrace
    (fun t a => match event t a with | .reaps p => decide ((t.procs p).frozen = 0) | _ => true)
    (fun s : State idleClient => decide ((s.procs 1).state = .unused)) idleKernel_init
    (by decide +kernel)
  have hs' : idleKernel.ReachableIf ReapsThawed s :=
    hs.mono fun t a h p he => by simpa [he] using h
  exact ⟨s, hs', of_decide_eq_true hp, (unused_not_frozen hs').1 1 (of_decide_eq_true hp)⟩

/-- The child freezes itself and exits, and its parent waits for it. -/
def exitFrozenTrace : List (CpuId × Act idleClient) :=
  forkTrace ++ goes 1 10 ++ [(1, .call (.sysFreeze 2))] ++ goes 1 6 ++ [(1, .call (.exit 0))] ++
    goes 1 286 ++ [(0, .call (.wait 0))] ++ goes 0 5

/-- The parent returns from `wait` and forks again. -/
def forkAgainTrace : List (CpuId × Act idleClient) := goes 0 1 ++ [(0, .call .fork)] ++ goes 0 16

set_option maxRecDepth 100000 in
/-- A process froze itself and exited: its slot is `UNUSED` with the flag set, and so the next one. -/
theorem unused_frozen_after_exit :
    ∃ s s', idleKernel.Reachable s ∧ (s.procs 1).state = .unused ∧ (s.procs 1).frozen ≠ 0 ∧
      idleKernel.RunIf (fun t a => ∀ p pid, event t a ≠ .freezes p pid) s s' ∧
      (s'.procs 1).state = .runnable ∧ (s'.procs 1).pid = 3 ∧ (s'.procs 1).frozen ≠ 0 := by
  obtain ⟨s, s', hs, hrun, hp⟩ := Lib.Lts.reachable_run_of_execs exitFrozenTrace forkAgainTrace
    (fun t a => match event t a with | .freezes _ _ => false | _ => true)
    (fun s s' : State idleClient => decide ((s.procs 1).state = .unused ∧ (s.procs 1).frozen ≠ 0 ∧
      (s'.procs 1).state = .runnable ∧ (s'.procs 1).pid = 3 ∧ (s'.procs 1).frozen ≠ 0))
    idleKernel_init (by decide +kernel)
  obtain ⟨hu, hz, hr, hpid, hz'⟩ := of_decide_eq_true hp
  refine ⟨s, s', hs, hu, hz, hrun.mono fun t a h p pid he => ?_, hr, hpid, hz'⟩
  simp [he] at h

end Xv6Freezer
