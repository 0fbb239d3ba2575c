import Xv6Freezer.Kernel.Follows

/-! # Processes that sleep

A process that is `SLEEPING` waits in `sched`, called by `sleep`; its `chan` field is the channel of that call
(`SleepInv`). Frames of `sleep` come from a call in `wait` or in code outside `proc.c`.
-/

namespace Xv6Freezer

open Function (update)

variable {M : Client} {init : M.Data → Prop} {s s' : State M} {c : CpuId} {p i : Slot}
  {f : Frame M} {q : Proc M} {k rest : List (Frame M)} {a : Act M} {chan : Chan} {ret : Frame M}

/-! ## Sleeping processes -/

/-- The channel and the caller of the `sleep` that waits in this frame. -/
def Frame.asleep : Frame M → Option (Chan × Frame M)
  | .sleep _ chan _ .tidy ret => some (chan, ret)
  | .schedCheck f => f.asleep
  | .schedSwtch _ f => f.asleep
  | _ => none

/-- The process `p` is `SLEEPING` in a call `sleep(chan, lk)` that returns to `ret`. -/
structure Asleep (s : State M) (p : Slot) (chan : Chan) (ret : Frame M) : Prop where
  state : (s.procs p).state = .sleeping
  waits : (s.procs p).chan = some chan
  sleeps : ret.sleeps chan
  top : ∃ f rest, s.kst p = f :: rest ∧ f.asleep = some (chan, ret)

/-- Every `SLEEPING` process is in a call of `sleep`. -/
def SleepInv (s : State M) : Prop :=
  ∀ p, (s.procs p).state = .sleeping → ∃ chan ret, Asleep s p chan ret

theorem Asleep.unique {chan' : Chan} {ret' : Frame M} (h : Asleep s p chan ret)
    (h' : Asleep s p chan' ret') : chan = chan' ∧ ret = ret' := by
  obtain ⟨f, rest, hk, hf⟩ := h.top
  obtain ⟨f', rest', hk', hf'⟩ := h'.top
  rw [hk] at hk'
  obtain ⟨rfl, -⟩ := List.cons.inj hk'
  rw [hf] at hf'
  simpa using hf'

theorem Change.sleeping_of (h : Change s c i f q) (hq : q.state = .sleeping) :
    (s.procs i).state = .sleeping ∧
        (q.chan = (s.procs i).chan ∨ (s.cpus c).on = some i ∧ f.stateIn = .running) ∨
      (s.cpus c).on = some i ∧ ∃ chan lk ret, f = .sleep i chan lk .set ret ∧
        q = { s.procs i with chan := some chan, state := .sleeping } := by
  cases h with
  | visit op =>
    rcases visit_state op (s.procs i) with e | ⟨-, e⟩
    · refine .inl ⟨e.symm.trans hq, .inl ?_⟩
      cases op <;> simp only [Xv6Freezer.visit, wakeupVisit, killVisit, sysFreezeVisit,
        sysUnfreezeVisit] <;> (repeat' split) <;> rfl
    · rw [e] at hq; cases hq
  | sleep chan hon => exact .inr ⟨hon, chan, _, _, rfl, rfl⟩
  | tidy hon => exact .inl ⟨hq, .inr ⟨hon, rfl⟩⟩
  | _ => first | exact .inl ⟨hq, .inl rfl⟩ | cases hq

theorem Stepped.kst_of_off (hs : Stepped s s' c f rest) (h : Inv s) (hf : s.stackOf c = f :: rest)
    (hon : (s.cpus c).on ≠ some p) : s'.kst p = s.kst p ∨ (s'.procs p).state = .running := by
  cases hs with
  | stays hs =>
    obtain ⟨k, i, q, hs⟩ := hs
    exact .inl (hs.kst p hon)
  | current _ hs => exact .inl (by rw [hs.kst])
  | swtchTo hf' he =>
    rename_i i
    subst hf'
    have hrun : (s.procs i).state = .running := (h.stack_cons hf).of_scheduler.2.2.1
    cases he
    by_cases hp : p = i
    · subst hp; exact .inr hrun
    · exact .inl (by simp [Function.update_of_ne hp])
  | swtchOut hf' he =>
    rename_i p' ret
    subst hf'
    have hst := h.stack_cons hf
    obtain ⟨p'', hon''⟩ := hst.on_some (fun _ => id) id
    obtain rfl : p' = p'' := (hst.ok hon'').1.1
    cases he
    have hp : p ≠ p' := fun e => hon (by rw [hon'', e])
    exact .inl (by simp [Function.update_of_ne hp])

theorem kstep_sched (h : Inv s) (hf : s.stackOf c = f :: rest) (hs : kstep s c a = some s')
    (hon : (s.cpus c).on = some p) (hsl : (s.procs p).state = .sleeping) :
    (s'.procs p).state = .sleeping ∧ (s'.procs p).chan = (s.procs p).chan ∧
      ∃ f', s'.kst p = f' :: rest ∧ f'.asleep = f.asleep := by
  have hst := h.stack_cons hf
  obtain ⟨hok, hstate⟩ := hst.ok hon
  have hin : f.stateIn = .sleeping := hstate.symm.trans hsl
  have hheld : f.held ≠ [] := by
    have hm := Frame.held_of_stateIn hok (by simp [hin])
    intro e
    simp [e] at hm
  obtain ⟨x, rfl, -⟩ := go_of_held h hf hheld hs
  simp only [kstep, hf] at hs
  obtain ⟨instr, hcode, he⟩ := Option.bind_eq_some_iff.mp hs
  cases f with
  | schedCheck ret =>
    obtain ⟨p', hon', hsc⟩ := h.schedCode_eq hf
    obtain rfl := Option.some.inj (hon.symm.trans hon')
    cases hcode
    rw [hsc] at he
    cases he
    refine ⟨by simpa [State.apply] using hsl, by simp [State.apply], .schedSwtch p ret, ?_, rfl⟩
    rw [State.setStack_kst_of_eq _ (by simpa [State.apply] using hon)]
    rfl
  | schedSwtch p' ret =>
    obtain rfl : p' = p := hok.1
    cases hcode
    cases he
    exact ⟨by simpa using hsl, by simp, ret, by simp, rfl⟩
  | exit p' status pc => cases pc <;> simp [Frame.stateIn] at hin
  | panic msg f => cases hcode
  | _ => simp [Frame.stateIn] at hin

/-- **A process that sleeps after a step** slept before, or has just gone to sleep. -/
theorem kstep_asleep (h : Inv s) (hs : kstep s c a = some s')
    (hsl : (s'.procs p).state = .sleeping) :
    ((s.procs p).state = .sleeping ∧ ∀ chan ret, Asleep s p chan ret → Asleep s' p chan ret) ∨
      ∃ chan lk ret rest, s.stackOf c = .sleep p chan lk .set ret :: rest ∧
        Asleep s' p chan ret ∧ s'.stackOf c = .schedCheck (.sleep p chan lk .tidy ret) :: rest := by
  obtain ⟨f, rest, hf, hstep⟩ := kstep_stepped h hs
  by_cases hsl0 : (s.procs p).state = .sleeping
  · refine .inl ⟨hsl0, fun chan ret ha => ?_⟩
    obtain ⟨f0, rest0, hk, hf0⟩ := ha.top
    by_cases hon : (s.cpus c).on = some p
    · rw [← State.stackOf_of_on hon, hf] at hk
      obtain ⟨rfl, rfl⟩ := List.cons.inj hk
      obtain ⟨h1, h2, f', hk', hf'⟩ := kstep_sched h hf hs hon hsl0
      exact ⟨h1, h2.trans ha.waits, ha.sleeps, f', rest, hk', hf'.trans hf0⟩
    · refine ⟨hsl, ?_, ha.sleeps, f0, rest0, ?_, hf0⟩
      · rcases hstep.slot h hf p with hchg | ⟨hon', -⟩
        · rcases hchg.sleeping_of hsl with ⟨-, e | ⟨hon', -⟩⟩ | ⟨hon', -⟩
          · exact e.trans ha.waits
          · exact absurd hon' hon
          · exact absurd hon' hon
        · exact absurd hon' hon
      · rcases hstep.kst_of_off h hf hon with e | e
        · rw [e, hk]
        · rw [hsl] at e; cases e
  · rcases hstep.slot h hf p with hchg | ⟨-, ret, -, e⟩
    · rcases hchg.sleeping_of hsl with ⟨e, -⟩ | ⟨hon, chan, lk, ret, rfl, hq⟩
      · exact absurd e hsl0
      · obtain ⟨x, rfl, -⟩ := go_of_held h hf (by simp [Frame.held, SleepPc.held]) hs
        simp only [kstep, hf, code, Option.bind_some] at hs
        cases hs
        have hret : ret.sleeps chan := ((h.stack_cons hf).ok hon).1.2.2.1
        refine .inr ⟨chan, lk, ret, rest, hf, ⟨hsl, by rw [hq], hret, ?_⟩, by simp⟩
        refine ⟨.schedCheck (.sleep p chan lk .tidy ret), rest, ?_, rfl⟩
        rw [State.setStack_kst_of_eq _ (by simpa [State.apply, State.setProc] using hon)]
        rfl
    · exact absurd (by rw [e] at hsl; exact hsl) hsl0

theorem kstep_sleepInv (hi : SleepInv s) (h : Inv s) (hs : kstep s c a = some s') : SleepInv s' := by
  intro p hsl
  rcases kstep_asleep h hs hsl with ⟨hsl0, hkeep⟩ | ⟨chan, lk, ret, rest, -, ha, -⟩
  · obtain ⟨chan, ret, ha⟩ := hi p hsl0
    exact ⟨chan, ret, hkeep chan ret ha⟩
  · exact ⟨chan, ret, ha⟩

theorem boot_sleepInv (tf pt cwd : Nat) (d : M.Data) : SleepInv (boot tf pt cwd d) := by
  intro p hsl
  by_cases hp : p = 0
  · subst hp; simp [boot, userinit] at hsl
  · simp [boot, Function.update_of_ne hp, procinit] at hsl

/-! ## Where the frames of `sleep` come from -/

/-- The program points of `sleep` before the process is `SLEEPING`. -/
def SleepPc.early : SleepPc → Bool
  | .acq | .rel | .set => true
  | _ => false

/-- How a frame of `sleep` that is not yet `SLEEPING` got on the stack: by a call in `wait` or outside
`proc.c`, or after the one before it. -/
inductive SleepFrom (s : State M) (c : CpuId) (x : Nat) (p : Slot) (chan : Chan) (lk : Lock M)
    (ret : Frame M) : SleepPc → Frame M → Prop
  | client {g k : M.Frame} {n : Nat} {l : M.Lk} (hp : myproc s c = some p)
      (hcode : M.code g (myproc s c) (mypid s c) s.data x = .sleep n l k) (hchan : chan = .addr n)
      (hlk : lk = .client l) (hret : ret = .client k) : SleepFrom s c x p chan lk ret .acq (.client g)
  | wait {r : Slot} {addr : Nat} {b : Bool} (hchan : chan = .proc r) :
      SleepFrom s c x p chan lk ret .acq (.wait r addr (.check b))
  | rel : SleepFrom s c x p chan lk ret .rel (.sleep p chan lk .acq ret)
  | set : SleepFrom s c x p chan lk ret .set (.sleep p chan lk .rel ret)

theorem Follows.sleepFrom {x : Nat} {lk : Lock M} {pc : SleepPc} (hst : StackOk s c (f :: rest))
    (h : Follows s c x f (.sleep p chan lk pc ret)) (hpc : pc.early = true) :
    SleepFrom s c x p chan lk ret pc f := by
  cases h with
  | schedRet =>
    -- `sched` returns to a later program point
    obtain ⟨p', hon⟩ := hst.on_some (fun _ => id) id
    obtain ⟨⟨-, -, hres⟩, -⟩ := hst.ok hon
    cases pc <;> first | exact hres.elim | cases hpc
  | sleepRel => exact .rel
  | sleepSet => exact .set
  | sleepUnlock | sleepReacq => cases hpc
  | sleepRet =>
    obtain ⟨p', hon⟩ := hst.on_some (fun _ => id) id
    obtain ⟨⟨-, -, hsl, -⟩, -⟩ := hst.ok hon
    exact hsl.elim
  | waitSleep => exact .wait rfl
  | clientSleep hp hcode => exact .client hp hcode rfl rfl rfl

theorem Parked.sleep_not_mem {pc : SleepPc} {lk : Lock M} {st : List (Frame M)}
    (h : Parked i st) (hpc : pc.early = true) : .sleep p chan lk pc ret ∉ st := by
  intro hm
  obtain ⟨hps, hheld, f, rest, rfl, htop⟩ := h
  have hok := hps.ok_of_mem _ hm
  -- the frame on top holds the only lock there is
  have hf : f.held = [.proc i] := by
    rcases htop with hres | rfl
    · exact Frame.held_of_resumes hps.1 hres
    · rfl
  have hrest : heldBy rest = [] := by
    rw [heldBy_cons, hf] at hheld
    simpa using hheld
  rcases List.mem_cons.mp hm with rfl | hm
  · cases pc <;> simp [SleepPc.early] at hpc <;> rcases htop with h | h <;> cases h
  · have hnil : (Frame.sleep p chan lk pc ret).held = [] := by
      have hsub : ∀ l ∈ (Frame.sleep p chan lk pc ret).held, l ∈ heldBy rest := fun l hl =>
        List.mem_flatMap.mpr ⟨_, hm, hl⟩
      rw [hrest] at hsub
      exact List.eq_nil_iff_forall_not_mem.mpr fun l hl => List.not_mem_nil (hsub l hl)
    cases pc <;> simp [SleepPc.early] at hpc <;> cases hnil

/-- **A frame of `sleep` on its way to sleep**: it was there, or the step put it there. -/
theorem kstep_sleep_mem {c' : CpuId} {lk : Lock M} {pc : SleepPc} (h : Inv s)
    (hs : kstep s c a = some s') (hf : s.stackOf c = f :: rest)
    (hm : .sleep p chan lk pc ret ∈ s'.stackOf c') (hpc : pc.early = true) :
    .sleep p chan lk pc ret ∈ s.stackOf c' ∨
      c' = c ∧ ∃ x, a = .go x ∧ SleepFrom s c x p chan lk ret pc f := by
  rcases kstep_stackOf_mem h hf hs hm with hm | ⟨rfl, harises | ⟨i, rfl, -, hctx⟩ | ⟨i, ret', -, e⟩⟩
  · exact .inl hm
  · cases harises with
    | go hcode hg =>
      exact .inr ⟨rfl, _, rfl, (code_follows hcode hg).sleepFrom (h.stack_cons hf) hpc⟩
    | under => exact .inl (hf ▸ List.mem_cons_self)
  · -- a process that is resumed is not on its way to sleep
    obtain ⟨-, hpark, -⟩ := h.saved_of_swtch hf
    exact absurd hctx (hpark.sleep_not_mem hpc)
  · cases e

end Xv6Freezer
