import Xv6Freezer.Kernel.Frames
import Xv6Freezer.Lib.Forest

/-! # The process forest

The `parent` links form a forest with `initproc` as its root, although slots are used again, also while
`wait_lock` is held.
-/

namespace Xv6Freezer

open Function (update update_self update_of_ne)

variable {M : Client} {init : M.Data → Prop} {s s' : State M} {c : CpuId} {p q r i j : Slot}
  {f g : Frame M} {rest : List (Frame M)} {a : Act M} {instr : Instr M}

def ProcState.Active (x : ProcState) : Prop := x = .runnable ∨ x = .sleeping ∨ x = .running

instance (x : ProcState) : Decidable x.Active := inferInstanceAs (Decidable (_ ∨ _ ∨ _))

theorem ProcState.Active.live {x : ProcState} (h : x.Active) : x.Live := by
  rcases h with h | h | h
  · exact .inl h
  · exact .inr (.inl h)
  · exact .inr (.inr (.inl h))

theorem ProcState.Active.ne_zombie {x : ProcState} (h : x.Active) : x ≠ .zombie := by
  rcases h with rfl | rfl | rfl <;> decide

/-! ## What the program points know -/

def ForkPc.slot : ForkPc → Option Slot
  | .check i | .trapframe i | .pagetable i | .context i | .copy i | .undo i | .unlock i _
  | .linkAcq i _ | .link i _ | .linkRel i _ | .runAcq i _ | .run i _ => some i
  | _ => none

/-- The slot that `fork` has linked and not yet made `RUNNABLE`. -/
def ForkPc.linked : ForkPc → Option Slot
  | .linkRel i _ | .runAcq i _ | .run i _ => some i
  | _ => none

def ForkPc.Placed (s : State M) (pc : ForkPc) : Prop :=
  (∀ i, pc.slot = some i → i < NPROC) ∧ ∀ i, pc.linked = some i → (s.procs i).parent ≠ none

/-- What `exit` of process `r` knows of its children. -/
def ExitPc.Left (s : State M) (r : Slot) : ExitPc → Prop
  | .start | .relWait | .dead => True
  | .reparent j => r ≠ s.initproc ∧ ∀ i < j, (s.procs i).parent ≠ some r
  | .wakeParent | .acqSelf | .zombie => r ≠ s.initproc ∧ ∀ i, (s.procs i).parent ≠ some r
  | _ => r ≠ s.initproc

structure Forest (s : State M) : Prop where
  init_lt : s.initproc < NPROC
  /-- `initproc` never exits. -/
  init : (s.procs s.initproc).state.Active
  root : (s.procs s.initproc).parent = none
  unused : ∀ i, (s.procs i).state = .unused → (s.procs i).parent = none
  parent : ∀ i p, (s.procs i).parent = some p → (s.procs p).state.Active
  /-- Every process but `initproc` has a parent. -/
  orphan : ∀ i, (s.procs i).state.Live → i ≠ s.initproc → (s.procs i).parent ≠ none
  bound : ∀ i, (s.procs i).parent ≠ none → i < NPROC
  rank : ∃ rank : Slot → Nat, rank s.initproc = 0 ∧
    ∀ i p, (s.procs i).parent = some p → rank p < rank i
  forks : ∀ q r pc, .fork r pc ∈ s.kst q → pc.Placed s
  exits : ∀ q r status pc, .exit r status pc ∈ s.kst q → pc.Left s r

theorem code_fork {x : Nat} {pc : ForkPc} (hok : f.Ok q) (hk : f.kind = .sys)
    (hi : code s c x f = some instr) (hg : .fork r pc ∈ instr.next) :
    ∃ pc0, f = .fork r pc0 ∧ instr = forkCode s r x pc0 := by
  cases code_follows hi hg with
  | fork _ pc0 => exact ⟨pc0, rfl, (Option.some.inj hi).symm⟩
  | schedRet => exact hok.2.2.elim
  | sleepRet => exact hok.2.2.1.elim

theorem code_exit {x : Nat} {status : Int} {pc : ExitPc} (hok : f.Ok q) (hk : f.kind = .sys)
    (hi : code s c x f = some instr) (hg : .exit r status pc ∈ instr.next) (hpc : pc ≠ .dead) :
    ∃ pc0, f = .exit r status pc0 ∧ instr = exitCode s r status pc0 := by
  cases code_follows hi hg with
  | exit _ _ pc0 => exact ⟨pc0, rfl, (Option.some.inj hi).symm⟩
  | schedRet => cases pc <;> first | exact hok.2.2.elim | exact absurd rfl hpc
  | sleepRet => exact hok.2.2.1.elim

theorem Change.active_stays {x : Proc M} (hchg : Change s c p f x)
    (hold : ∀ r pc, f = .fork r pc → pc.Holds s) (h : (s.procs p).state.Active) :
    x.state.Active ∨ ∃ status, f = .exit p status .zombie := by
  cases hchg with
  | visit op =>
    rcases visit_state op (s.procs p) with e | ⟨-, e⟩
    · exact .inl (by rw [e]; exact h)
    · exact .inl (.inl e)
  | yield => exact .inl (.inl rfl)
  | sleep => exact .inl (.inr (.inl rfl))
  | pick => exact .inl (.inr (.inr rfl))
  | run => exact .inl (.inl rfl)
  | zombie status => exact .inr ⟨status, rfl⟩
  | alloc hu => exact absurd hu h.live.ne_unused
  | undo => exact absurd (hold _ _ rfl p rfl).1 h.live.ne_used
  | reap hz => exact absurd hz h.ne_zombie
  | _ => exact .inl h

theorem Change.live_before {x : Proc M} (h : Inv s) (hchg : Change s c p f x) (hl : x.state.Live) :
    (s.procs p).state.Live ∨ ∃ r pid, f = .fork r (.run p pid) := by
  have hon : (s.cpus c).on = some p → (s.procs p).state.Live := h.live_of_on
  cases hchg with
  | visit op =>
    rcases visit_state op (s.procs p) with e | ⟨e, -⟩
    · exact .inl (by rw [← e]; exact hl)
    · exact .inl (.inr (.inl e))
  | yield hp => exact .inl (hon hp)
  | sleep chan hp => exact .inl (hon hp)
  | zombie status hp => exact .inl (hon hp)
  | pick found hfr hr => exact .inl (.inl hr)
  | run pid => exact .inr ⟨_, pid, rfl⟩
  | alloc | undo | reap => rcases hl with e | e | e | e <;> cases e
  | _ => exact .inl hl

theorem Inv.sys_mem (h : Inv s) (hf : s.stackOf c = f :: rest) (hk : f.kind = .sys) :
    ∃ q, (s.cpus c).on = some q ∧ f.Ok q ∧ f ∈ s.kst q ∧ (s.procs q).state = f.stateIn := by
  have hns : ∀ g : Frame M, (∃ pc, g.IsScheduler pc) ∨ g.OnScheduler → g.kind ≠ .sys := by
    intro g hg
    induction g with
    | panic msg g ih =>
      rcases hg with ⟨pc, hg⟩ | hg
      · exact hg.elim
      · exact ih (.inr hg.1)
    | _ => rcases hg with ⟨pc, hg⟩ | hg <;> first | exact hg.elim | exact nofun
  obtain ⟨q, hon⟩ := (h.stack_cons hf).on_some (fun pc hg => hns f (.inl ⟨pc, hg⟩) hk)
    fun hg => hns f (.inr hg) hk
  obtain ⟨hok, hstate⟩ := (h.stack_cons hf).ok hon
  refine ⟨q, hon, hok, ?_, hstate⟩
  rw [← State.stackOf_of_on hon, hf]
  exact .head _

theorem not_active_of_freed (h : Inv s) (hf : s.stackOf c = f :: rest)
    (hfree : (∃ r, f = .fork r (.undo j)) ∨
      (s.procs j).state = .zombie ∧ ∃ r addr, f = .wait r addr (.look j)) :
    ¬ (s.procs j).state.Active := by
  intro ha
  rcases hfree with ⟨r, rfl⟩ | ⟨hz, -⟩
  · exact ha.live.ne_used (StackOk.fork_holds h hf _ _ rfl j rfl).1
  · exact ha.ne_zombie hz

namespace Forest

section Step

variable (F : Forest s) (h : Inv s) (hf : s.stackOf c = f :: rest) (hs : kstep s c a = some s')

include F h hf

theorem left {status : Int} {pc : ExitPc} (e : f = .exit r status pc) : pc.Left s r := by
  subst e
  obtain ⟨q, -, -, hm, -⟩ := h.sys_mem hf rfl
  exact F.exits q r status pc hm

theorem placed {pc : ForkPc} (e : f = .fork r pc) : pc.Placed s := by
  subst e
  obtain ⟨q, -, -, hm, -⟩ := h.sys_mem hf rfl
  exact F.forks q r pc hm

include hs

theorem active_step (hp : (s.procs p).state.Active) :
    (s'.procs p).state.Active ∨ p ≠ s.initproc ∧ ∀ i, (s.procs i).parent ≠ some p := by
  have hstep := kstep_stepped_of h hf hs
  rcases hstep.slot h hf p with hchg | ⟨-, ret, -, e⟩
  · rcases hchg.active_stays (StackOk.fork_holds h hf) hp with hp' | ⟨status, e⟩
    · exact .inl hp'
    · exact .inr (F.left h hf e)
  · exact .inl (by rw [e]; exact hp)

theorem init_step : (s'.procs s.initproc).state.Active := by
  rcases F.active_step h hf hs F.init with ha | ⟨hne, -⟩
  · exact ha
  · exact absurd rfl hne

theorem root_step : (s'.procs s.initproc).parent = none := by
  rcases kstep_parent hf hs s.initproc with e | ⟨r, pid, rfl, -⟩ | ⟨r, status, -, -, e, -⟩ |
    ⟨-, hfree⟩
  · rw [e, F.root]
  · exact absurd (StackOk.fork_holds h hf _ _ rfl _ rfl).1 F.init.live.ne_used
  · rw [F.root] at e; cases e
  · exact absurd F.init (not_active_of_freed h hf hfree)

theorem unused_step (hu : (s'.procs i).state = .unused) : (s'.procs i).parent = none := by
  have hstep := kstep_stepped_of h hf hs
  have hback : (s.procs i).state = .unused ∨ (s'.procs i).parent = none := by
    rcases hstep.slot h hf i with hchg | ⟨-, ret, -, e⟩
    · rcases kstep_unused h hs hf hchg hu with e | e | ⟨r, rfl⟩
      · exact .inl e
      · exact .inr (by rw [kstep_reaps e hs]; rfl)
      · refine .inr ?_
        obtain ⟨x, rfl, -⟩ := go_of_held h hf (by simp [Frame.held, ForkPc.held]) hs
        simp only [kstep, hf, code, forkCode, Option.bind_some] at hs
        cases hs
        simp [State.apply, State.setProc, freeproc]
    · exact .inl (by rw [e] at hu; exact hu)
  rcases hback with hu0 | e
  · have hn := F.unused i hu0
    rcases kstep_parent hf hs i with e | ⟨r, pid, rfl, -⟩ | ⟨r, status, -, -, e, -⟩ | ⟨e, -⟩
    · rw [e, hn]
    · rw [(StackOk.fork_holds h hf _ _ rfl _ rfl).1] at hu0
      cases hu0
    · rw [hn] at e; cases e
    · rw [e]; rfl
  · exact e

theorem parent_step (hp : (s'.procs i).parent = some p) : (s'.procs p).state.Active := by
  rcases kstep_parent hf hs i with e | ⟨r, pid, rfl, e⟩ | ⟨r, status, -, -, -, e⟩ | ⟨e, -⟩
  · rw [e] at hp
    rcases F.active_step h hf hs (F.parent i p hp) with ha | ⟨-, hno⟩
    · exact ha
    · exact absurd hp (hno i)
  · -- the new child of the process that executes
    rw [e] at hp
    cases hp
    obtain ⟨q, hon, rfl, -, hstate⟩ := h.sys_mem hf rfl
    have hstep := kstep_stepped_of h hf hs
    rcases hstep.slot h hf p with hchg | ⟨-, ret, e', -⟩
    · rcases hchg.active_stays (StackOk.fork_holds h hf) (.inr (.inr hstate)) with ha | ⟨_, e'⟩
      · exact ha
      · cases e'
    · cases e'
  · rw [e] at hp
    cases hp
    exact F.init_step h hf hs
  · rw [e] at hp; cases hp

theorem orphan_step (hlive : (s'.procs i).state.Live) (hi : i ≠ s.initproc) :
    (s'.procs i).parent ≠ none := by
  rcases kstep_parent hf hs i with e | ⟨r, pid, rfl, e⟩ | ⟨r, status, -, -, -, e⟩ | ⟨e, -⟩
  · rw [e]
    have hstep := kstep_stepped_of h hf hs
    rcases hstep.slot h hf i with hchg | ⟨-, ret, -, e'⟩
    · rcases hchg.live_before h hlive with hl0 | ⟨r, pid, e'⟩
      · exact F.orphan i hl0 hi
      · exact (F.placed h hf e').2 i rfl
    · rw [e'] at hlive
      exact F.orphan i hlive hi
  · rw [e]; exact Option.some_ne_none r
  · rw [e]; exact Option.some_ne_none _
  · rw [e] at hlive
    exact absurd rfl hlive.ne_unused

theorem bound_step (hp : (s'.procs i).parent ≠ none) : i < NPROC := by
  rcases kstep_parent hf hs i with e | ⟨r, pid, e, -⟩ | ⟨r, status, -, hlt, -, -⟩ | ⟨e, -⟩
  · rw [e] at hp; exact F.bound i hp
  · exact (F.placed h hf e).1 i rfl
  · exact hlt
  · rw [e] at hp; exact absurd rfl hp

theorem rank_step : ∃ rank : Slot → Nat, rank s.initproc = 0 ∧
    ∀ i p, (s'.procs i).parent = some p → rank p < rank i := by
  obtain ⟨rank, h0, hrank⟩ := F.rank
  by_cases hlink : ∃ r j pid, f = .fork r (.link j pid)
  · obtain ⟨r, j, pid, rfl⟩ := hlink
    have hused := (StackOk.fork_holds h hf _ _ rfl j rfl).1
    have hne : ∀ p, (s.procs p).state.Active → p ≠ j := by
      rintro p hp rfl
      exact hp.live.ne_used hused
    obtain ⟨q, hon, rfl, -, hstate⟩ := h.sys_mem hf rfl
    have hrj : r ≠ j := hne r (.inr (.inr hstate))
    obtain ⟨x, rfl, -⟩ := go_of_held h hf (by simp [Frame.held, ForkPc.held]) hs
    simp only [kstep, hf, code, forkCode, Option.bind_some] at hs
    cases hs
    refine ⟨update rank j (rank r + 1), by rw [update_of_ne (hne _ F.init), h0], fun i p hp => ?_⟩
    simp only [State.apply, State.setProc, State.setStack_procs] at hp
    by_cases hij : i = j
    · subst hij
      rw [update_self] at hp
      cases hp
      rw [update_of_ne hrj, update_self]
      exact Nat.lt_succ_self _
    · rw [update_of_ne hij] at hp
      rw [update_of_ne hij, update_of_ne (hne p (F.parent i p hp))]
      exact hrank i p hp
  · refine ⟨rank, h0, fun i p hp => ?_⟩
    rcases kstep_parent hf hs i with e | ⟨r, pid, e, -⟩ | ⟨r, status, -, -, hr, e⟩ | ⟨e, -⟩
    · exact hrank i p (e ▸ hp)
    · exact absurd ⟨r, i, pid, e⟩ hlink
    · rw [e] at hp
      cases hp
      rw [h0]
      exact Nat.zero_lt_of_lt (hrank i r hr)
    · rw [e] at hp; cases hp

theorem forks_step {pc : ForkPc} (hm : .fork r pc ∈ s'.kst q) : pc.Placed s' := by
  -- a child that was linked stays linked
  have hkeep : ∀ i, (s.procs i).parent ≠ none → (s'.procs i).parent ≠ none ∨
      ((∃ r, f = .fork r (.undo i)) ∨ (s.procs i).state = .zombie) := fun i hi => by
    rcases kstep_parent hf hs i with e | ⟨r, pid, -, e⟩ | ⟨r, status, -, -, -, e⟩ | ⟨-, hfree⟩
    · exact .inl (by rw [e]; exact hi)
    · exact .inl (by rw [e]; exact Option.some_ne_none r)
    · exact .inl (by rw [e]; exact Option.some_ne_none _)
    · exact .inr (hfree.imp_right And.left)
  rcases kstep_sys h hf hs hm rfl with ⟨hm0, hnot⟩ | ⟨-, rfl⟩ | ⟨hon, hk, x, instr, rfl, hi, hg⟩
  · obtain ⟨hslot, hlinked⟩ := F.forks q r pc hm0
    refine ⟨hslot, fun i hi => ?_⟩
    have hclaims : pc.claims = some i := by
      cases pc <;> simp only [ForkPc.linked, reduceCtorEq] at hi <;> exact hi
    rcases hkeep i (hlinked i hi) with hne | ⟨r', rfl⟩ | hz
    · exact hne
    · obtain ⟨q', hon', -, hm', -⟩ := h.sys_mem hf rfl
      obtain rfl := h.claims q q' r r' pc _ i hm0 hm' hclaims rfl
      obtain ⟨x, rfl, -⟩ := go_of_held h hf (by simp [Frame.held, ForkPc.held]) hs
      rcases hnot hon' with hk | hx
      · exact absurd rfl hk
      · exact absurd rfl (hx x)
    · rw [(h.forks q r pc hm0 i hclaims).1] at hz
      cases hz
  · exact ⟨fun _ h => (by cases h), fun _ h => (by cases h)⟩
  · obtain ⟨pc0, rfl, rfl⟩ := code_fork ((h.stack_cons hf).ok hon).1 hk hi hg
    obtain ⟨hslot, hlinked⟩ := F.placed h hf rfl
    have hlinked' : ∀ i, pc0.linked = some i → (s'.procs i).parent ≠ none := fun i hi => by
      rcases hkeep i (hlinked i hi) with hne | ⟨r', e⟩ | hz
      · exact hne
      · cases e; cases hi
      · have hclaims : pc0.claims = some i := by
          cases pc0 <;> simp only [ForkPc.linked, reduceCtorEq] at hi <;> exact hi
        rw [(StackOk.fork_holds h hf _ _ rfl i hclaims).1] at hz
        cases hz
    cases pc0 with
    | alloc i =>
      simp only [forkCode] at hg
      split at hg
      · rename_i hlt
        cases List.mem_singleton.mp hg
        exact ⟨fun j hj => by cases hj; exact hlt, fun _ h => (by cases h)⟩
      · cases hg
    | link np pid =>
      cases List.mem_singleton.mp hg
      refine ⟨fun j hj => hslot j hj, fun j hj => ?_⟩
      cases hj
      simp only [kstep, hf, code, forkCode, Option.bind_some] at hs
      cases hs
      simp [State.apply, State.setProc]
    | _ =>
      simp only [forkCode] at hg
      (repeat' split at hg) <;> simp only [Instr.next, Instr.jump, List.mem_singleton,
        List.not_mem_nil, Frame.fork.injEq, true_and] at hg <;> subst hg <;>
        refine ⟨fun j hj => ?_, fun j hj => ?_⟩ <;>
        first | cases hj; done | exact hslot j hj | exact hlinked' j hj

theorem exits_step (hl : SysInv s) {status : Int} {pc : ExitPc} (hm : .exit r status pc ∈ s'.kst q) :
    pc.Left s' r := by
  by_cases hd : pc = .dead
  · subst hd; trivial
  have hinit := kstep_initproc hf hs
  have hsys : (Frame.exit r status pc : Frame M).isSys = true := decide_eq_true hd
  -- nobody else makes `r` a parent while `r` is in `exit`
  have hkeep : r ≠ s.initproc → (∀ j pid, f ≠ .fork r (.link j pid)) →
      ∀ i, (s.procs i).parent ≠ some r → (s'.procs i).parent ≠ some r := fun hr hno i hi => by
    rcases kstep_parent hf hs i with e | ⟨r', pid, e, e'⟩ | ⟨r', status, -, -, -, e⟩ | ⟨e, -⟩
    · rw [e]; exact hi
    · rw [e']
      intro e''
      cases e''
      exact hno i pid e
    · rw [e]
      intro e''
      exact hr (Option.some.inj e'').symm
    · rw [e]; intro h; cases h
  rcases kstep_sys h hf hs hm hsys with ⟨hm0, hnot⟩ | ⟨-, rfl⟩ | ⟨hon, hk, x, instr, rfl, hi, hg⟩
  · have hno : ∀ j pid, f ≠ .fork r (.link j pid) := by
      rintro j pid rfl
      obtain ⟨q', hon', hq', -, -⟩ := h.sys_mem hf rfl
      obtain rfl : r = q := hl.ok h hm0 hsys
      obtain rfl : r = q' := hq'
      obtain ⟨x, rfl, -⟩ := go_of_held h hf (by simp [Frame.held, ForkPc.held]) hs
      rcases hnot hon' with hk | hx
      · exact absurd rfl hk
      · exact absurd rfl (hx x)
    have hleft := F.exits q r status pc hm0
    cases pc <;> simp only [ExitPc.Left, hinit] at hleft ⊢ <;> first
      | exact hleft
      | exact ⟨hleft.1, fun i => hkeep hleft.1 hno i (hleft.2 i)⟩
      | exact ⟨hleft.1, fun i hi => hkeep hleft.1 hno i (hleft.2 i hi)⟩
  · trivial
  · obtain ⟨pc0, rfl, rfl⟩ := code_exit ((h.stack_cons hf).ok hon).1 hk hi hg hd
    have hleft := F.left h hf rfl
    have hkeep' := fun hr : r ≠ s.initproc => hkeep hr fun _ _ e => by cases e
    cases pc0 with
    | start =>
      simp only [exitCode] at hg
      split at hg
      · cases List.mem_singleton.mp hg
      · rename_i hne
        cases List.mem_singleton.mp hg
        simpa only [ExitPc.Left, hinit] using hne
    | reparent j =>
      simp only [exitCode] at hg
      split at hg
      · rename_i hlt
        simp only [ExitPc.Left] at hleft
        have hpc : pc = .reparent (j + 1) := by
          split at hg <;> simpa [Instr.next, Instr.jump] using hg
        subst hpc
        simp only [ExitPc.Left, hinit]
        refine ⟨hleft.1, fun i hi => ?_⟩
        by_cases hij : i = j
        · subst hij
          by_cases hp : (s.procs i).parent = some r
          · -- the child goes to `initproc`
            simp only [kstep, hf, code, exitCode, if_pos hlt, if_pos hp, Option.bind_some] at hs
            cases hs
            simpa [State.apply, State.setProc] using hleft.1.symm
          · exact hkeep' hleft.1 i hp
        · exact hkeep' hleft.1 i (hleft.2 i (Nat.lt_of_le_of_ne (Nat.le_of_lt_succ hi) hij))
      · rename_i hge
        cases List.mem_singleton.mp hg
        simp only [ExitPc.Left, hinit] at hleft ⊢
        refine ⟨hleft.1, fun i => hkeep' hleft.1 i fun hi => ?_⟩
        have hlt := F.bound i (by rw [hi]; exact Option.some_ne_none r)
        exact hleft.2 i (hlt.trans_le (Nat.le_of_not_lt hge)) hi
    | acqWait =>
      cases List.mem_singleton.mp hg
      simp only [ExitPc.Left, hinit]
      exact ⟨hleft, fun i hi => absurd hi (Nat.not_lt_zero i)⟩
    | wakeParent =>
      obtain rfl : pc = .acqSelf := by simpa [exitCode, Instr.next, Instr.jump] using hg
      simp only [ExitPc.Left, hinit]
      exact ⟨hleft.1, fun i => hkeep' hleft.1 i (hleft.2 i)⟩
    | acqSelf =>
      cases List.mem_singleton.mp hg
      simp only [ExitPc.Left, hinit]
      exact ⟨hleft.1, fun i => hkeep' hleft.1 i (hleft.2 i)⟩
    | zombie => cases List.mem_singleton.mp hg; trivial
    | relWait | dead => cases List.mem_singleton.mp hg
    | _ =>
      -- before `wait_lock` is taken
      simp only [exitCode] at hg
      (repeat' split at hg) <;> simp only [Instr.next, Instr.jump, List.mem_cons, List.not_mem_nil,
        or_false, reduceCtorEq, false_or, Frame.exit.injEq, true_and] at hg <;> subst hg <;>
        simp only [ExitPc.Left, hinit] <;> exact hleft

end Step

theorem step (F : Forest s) (h : Inv s) (hl : SysInv s) (hs : kstep s c a = some s') :
    Forest s' := by
  obtain ⟨f, rest, hf, -⟩ := kstep_stepped h hs
  have hinit := kstep_initproc hf hs
  exact
    { init_lt := by rw [hinit]; exact F.init_lt
      init := by rw [hinit]; exact F.init_step h hf hs
      root := by rw [hinit]; exact F.root_step h hf hs
      unused := fun i => F.unused_step h hf hs
      parent := fun i p => F.parent_step h hf hs
      orphan := fun i hlive hi => F.orphan_step h hf hs hlive (by rwa [hinit] at hi)
      bound := fun i => F.bound_step h hf hs
      rank := by rw [hinit]; exact F.rank_step h hf hs
      forks := fun q r pc => F.forks_step h hf hs
      exits := fun q r status pc => F.exits_step h hf hs hl }

end Forest

theorem sysInv_boot (tf pt cwd : Nat) (d : M.Data) : SysInv (boot tf pt cwd d) := nofun

theorem forest_boot (tf pt cwd : Nat) (d : M.Data) : Forest (boot tf pt cwd d) := by
  have hparent : ∀ i, ((boot tf pt cwd d).procs i).parent = none := fun i => by
    by_cases hi : i = 0
    · subst hi; rfl
    · simp only [boot, update_of_ne hi]; rfl
  have hnone : ∀ {i p} {C : Prop}, ((boot tf pt cwd d).procs i).parent = some p → C := fun e => by
    rw [hparent] at e; cases e
  refine ⟨show 0 < NPROC by decide, .inl rfl, hparent _, fun i _ => hparent i, fun i p e => hnone e,
    fun i hlive hi => ?_, fun i hi => absurd (hparent i) hi, ⟨fun _ => 0, rfl, fun i p e => hnone e⟩,
    fun _ _ _ h => (by cases h), fun _ _ _ _ h => (by cases h)⟩
  have : ((boot tf pt cwd d).procs i).state = .unused := by
    simp only [boot, update_of_ne (show i ≠ 0 from hi)]; rfl
  exact absurd this hlive.ne_unused

theorem reachable_forest (h : (kernel M init).Reachable s) : Inv s ∧ SysInv s ∧ Forest s := by
  refine h.invariant (I := fun s => Inv s ∧ SysInv s ∧ Forest s) ?_ ?_
  · intro s h0
    have hinv : Inv s := reachable_inv ⟨s, h0, Lib.Lts.RunIf.refl s⟩
    obtain ⟨tf, pt, cwd, d, -, rfl⟩ := h0
    exact ⟨hinv, sysInv_boot tf pt cwd d, forest_boot tf pt cwd d⟩
  · rintro s ⟨c, a⟩ s' ⟨hinv, hl, F⟩ - hs
    exact ⟨kstep_inv hinv hs, kstep_sysInv hinv hl hs, F.step hinv hl hs⟩

theorem Forest.lt_of_live {i : Slot} (F : Forest s) (hi : (s.procs i).state.Live) : i < NPROC := by
  by_cases hroot : i = s.initproc
  · rw [hroot]; exact F.init_lt
  · exact F.bound i (F.orphan i hi hroot)

theorem Forest.climbs (F : Forest s) (i : Slot) (hi : (s.procs i).parent ≠ none) :
    ∃ k < NPROC, Lib.climb (fun i => (s.procs i).parent) k i = some s.initproc := by
  obtain ⟨rank, -, hrank⟩ := F.rank
  -- all slots with a parent are in the table, and `initproc` is none of them
  have hS : ∀ i p, (s.procs i).parent = some p → i ∈ (Finset.range NPROC).erase s.initproc := by
    intro i p hp
    refine Finset.mem_erase.mpr ⟨?_, Finset.mem_range.mpr (F.bound i (by simp [hp]))⟩
    rintro rfl
    rw [F.root] at hp
    cases hp
  have hup : ∀ i p, (s.procs i).parent = some p →
      p = s.initproc ∨ ∃ p', (s.procs p).parent = some p' := fun i p hp => by
    by_cases hroot : p = s.initproc
    · exact .inl hroot
    · exact .inr (Option.ne_none_iff_exists'.mp (F.orphan p (F.parent i p hp).live hroot))
  obtain ⟨k, hk, hc⟩ := Lib.exists_climb_root hS hrank hup (Option.ne_none_iff_exists'.mp hi)
  have hcard : ((Finset.range NPROC).erase s.initproc).card = NPROC - 1 := by
    rw [Finset.card_erase_of_mem (Finset.mem_range.mpr F.init_lt), Finset.card_range]
  exact ⟨k, by rw [hcard] at hk; exact Nat.lt_of_le_pred (by decide) hk, hc⟩

/-- **The process forest**: a parent is neither `UNUSED` nor `ZOMBIE`, an `UNUSED` slot has no parent, and
from every slot with a parent the links lead to `initproc` in fewer than `NPROC` steps. -/
theorem process_forest (h : (kernel M init).Reachable s) :
    (∀ i p, (s.procs i).parent = some p →
      (s.procs p).state ≠ .unused ∧ (s.procs p).state ≠ .zombie) ∧
    (∀ i, (s.procs i).state = .unused → (s.procs i).parent = none) ∧
    ∀ i, (s.procs i).parent ≠ none →
      ∃ k < NPROC, Lib.climb (fun i => (s.procs i).parent) k i = some s.initproc := by
  obtain ⟨-, -, F⟩ := reachable_forest h
  exact ⟨fun i p hp => ⟨(F.parent i p hp).live.ne_unused, (F.parent i p hp).ne_zombie⟩, F.unused,
    F.climbs⟩

theorem process_forest_fork : ∃ s, idleKernel.Reachable s ∧ (s.procs 1).parent = some 0 ∧
    ∃ k < NPROC, Lib.climb (fun i => (s.procs i).parent) k 1 = some s.initproc := by
  obtain ⟨s, hs, hp⟩ := Lib.Lts.reachable_of_execs forkTrace
    (fun s : State idleClient => decide ((s.procs 1).parent = some 0)) idleKernel_init
    (by decide)
  have hp := of_decide_eq_true hp
  exact ⟨s, hs, hp, (process_forest hs).2.2 1 (by rw [hp]; exact Option.some_ne_none 0)⟩

end Xv6Freezer
