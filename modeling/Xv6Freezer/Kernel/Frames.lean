import Xv6Freezer.Kernel.Assert

/-! # Where system calls and fields come from

Which calls of `fork`, `exit` and `wait` are on the kernel stack of a process after a step (`kstep_sys`),
who writes the `parent` field of a slot (`kstep_parent`), who calls `allocpid` (`kstep_nextpid`). -/

namespace Xv6Freezer

open Function (update update_of_ne)

variable {M : Client} {s s' : State M} {c c' : CpuId} {p q i j : Slot} {f g : Frame M}
  {k rest : List (Frame M)} {a : Act M} {instr : Instr M}

theorem stateIn_live (st : List (Frame M)) : (stateIn st).Live := by
  have hrun : ProcState.running.Live := .inr (.inr (.inl rfl))
  cases st with
  | nil => exact hrun
  | cons f rest =>
    have hp : ∀ g : Frame M, g.parked.Live := by
      intro g
      cases g <;> simp [Frame.parked, ProcState.Live]
    rw [stateIn_cons]
    induction f with
    | schedCheck ret => exact hp ret
    | schedSwtch q ret => exact hp ret
    | exit q status pc => cases pc <;> simp [Frame.stateIn, ProcState.Live]
    | panic msg f ih => exact ih
    | _ => exact hrun

theorem Inv.live_of_on (h : Inv s) (hon : (s.cpus c).on = some p) : (s.procs p).state.Live := by
  have hst := h.stack c
  rw [StackOk, hon] at hst
  rw [hst.2]
  exact stateIn_live _

theorem ProcState.Live.ne_unused {x : ProcState} (h : x.Live) : x ≠ .unused := by
  rcases h with rfl | rfl | rfl | rfl <;> decide

theorem ProcState.Live.ne_used {x : ProcState} (h : x.Live) : x ≠ .used := by
  rcases h with rfl | rfl | rfl | rfl <;> decide

/-! ## System calls

The frames of `fork`, `exit` and `wait` that execute or wait inside a call, and what a step does to
them. -/

/-- A call of `fork`, `exit` or `wait` under way, outside `sched` and `sleep`. -/
def Frame.isSys : Frame M → Bool
  | .fork _ _ | .wait _ _ _ => true
  | .exit _ _ pc => pc ≠ .dead
  | _ => false

/-- The first frame of a call of `fork`, `exit` or `wait` by process `p`. -/
def Frame.Starts (p : Slot) : Frame M → Prop
  | .fork r pc => r = p ∧ pc = .alloc 0
  | .exit r _ pc => r = p ∧ pc = .start
  | .wait r _ pc => r = p ∧ pc = .acqWait
  | _ => False

theorem Follows.not_isSys {x : Nat} (h : Follows s c x f g) (hok : f.Ok q) (hk : f.kind ≠ .sys)
    (hsys : g.isSys = true) : False := by
  cases h with
  | schedRet =>
    obtain ⟨q, rfl⟩ | ⟨q, chan, lk, ret, rfl⟩ | ⟨q, status, rfl⟩ := Frame.resumes_cases hok.2.2 <;>
      cases hsys
  | sleepRet =>
    have := hok.2.2.1
    cases g <;> simp_all [Frame.isSys, Frame.kind]
  | _ => first | exact hk rfl | cases hsys

theorem Inv.procStack (h : Inv s) (hon : (s.cpus c).on = some q) (hf : s.stackOf c = f :: rest) :
    ProcStack q (f :: rest) := by
  have hst := h.stack c
  rw [StackOk, hon, hf] at hst
  exact hst.1

theorem ProcStack.kind_ne_sys (h : ProcStack q (f :: rest)) (hg : g ∈ rest)
    (hsys : g.isSys = true) : f.kind ≠ .sys := by
  intro hk
  have h2 := h.2
  rw [hk] at h2
  obtain rfl : rest = [.body q] := h2
  rw [List.mem_singleton.mp hg] at hsys
  cases hsys

/-- **A step and a system call**: it has not moved, or a process makes it, or it moves. -/
theorem kstep_sys (h : Inv s) (hf : s.stackOf c = f :: rest) (hs : kstep s c a = some s')
    (hm : g ∈ s'.kst q) (hsys : g.isSys = true) :
    (g ∈ s.kst q ∧ ((s.cpus c).on = some q → f.kind ≠ .sys ∨ ∀ x, a ≠ .go x)) ∨
      g.Starts q ∨
      (s.cpus c).on = some q ∧ f.kind = .sys ∧
        ∃ x instr, a = .go x ∧ code s c x f = some instr ∧ g ∈ instr.next := by
  rcases kstep_kst_mem h hf hs hm with ⟨hm, hrest⟩ | ⟨hon, hkst, harises⟩ | rfl
  · exact .inl ⟨hm, fun hon => .inl ((h.procStack hon hf).kind_ne_sys (hrest hon) hsys)⟩
  · have hproc : ∀ {p}, myproc s c = some p → p = q := fun hp =>
      Option.some.inj (hp.symm.trans (h.busy c q hon).1)
    cases harises with
    | go hcode hg =>
      by_cases hk : f.kind = .sys
      · exact .inr (.inr ⟨hon, hk, _, _, rfl, hcode, hg⟩)
      · exact ((code_follows hcode hg).not_isSys (h.procStack hon hf).1 hk hsys).elim
    | under ha => exact .inl ⟨hkst ▸ List.mem_cons_self, fun _ => .inr ha⟩
    | fork hp | exit hp | wait hp => exact .inr (.inl ⟨hproc hp, rfl⟩)
    | _ => cases hsys
  · cases hsys

/-- A system call under way, with its process on a CPU or on its way to one. -/
def SysLive (s : State M) (q : Slot) : Prop :=
  (∃ c, (s.cpus c).on = some q) ∨
    ((s.procs q).state.Live ∧ (s.procs q).state ≠ .zombie) ∧ (s.procs q).context = s.kst q

/-- A frame that a process never leaves behind on its stack. -/
def Frame.isFixed : Frame M → Bool
  | .scheduler _ | .body _ | .forkret _ _ => false
  | .exit _ _ pc => pc ≠ .dead
  | _ => true

theorem Frame.isFixed_of_isSys (h : g.isSys = true) : g.isFixed = true := by
  cases g <;> first | rfl | exact h

def SysInv (s : State M) : Prop := ∀ q g, g ∈ s.kst q → g.isFixed = true → SysLive s q

theorem kstep_on (h : Inv s) (hf : s.stackOf c = f :: rest) (hs : kstep s c a = some s')
    (hon : (s.cpus c').on = some q) : (s'.cpus c').on = some q ∨
      c' = c ∧ ∃ ret, f = .schedSwtch q ret ∧ s'.kst q = ret :: rest ∧
        s'.procs q = { s.procs q with context := ret :: rest } := by
  obtain ⟨instr, hi, he⟩ := kstep_instr hf hs
  cases instr with
  | swtchTo i k =>
    obtain rfl := instrOf_swtchTo hi
    cases he
    have hc : c' ≠ c := by
      rintro rfl
      rw [(h.stack_cons hf).of_scheduler.1] at hon
      cases hon
    exact .inl (by simpa [update_of_ne hc] using hon)
  | swtchOut i k =>
    obtain ⟨ret, rfl⟩ := instrOf_swtchOut hi
    by_cases hc : c' = c
    · subst hc
      obtain rfl : i = q := ((h.stack_cons hf).ok hon).1.1
      obtain ⟨x, rfl, -⟩ := go_of_held h hf (by
        have hok := ((h.stack_cons hf).ok hon).1
        simp [Frame.held, Frame.held_of_resumes hok.2.1 hok.2.2]) hs
      obtain rfl : k = [ret] := by
        obtain h := Option.some.inj hi
        cases h
        rfl
      cases he
      exact .inr ⟨rfl, ret, rfl, by simp, by simp⟩
    · cases he
      exact .inl (by simpa [update_of_ne hc] using hon)
  | _ => exact .inl (by rw [exec_on he rfl, hon])

theorem Change.goes_on {x : Proc M} (hchg : Change s c q f x)
    (hold : ∀ r pc, f = .fork r pc → pc.Holds s) (hon : (s.cpus c).on ≠ some q)
    (hl : (s.procs q).state.Live ∧ (s.procs q).state ≠ .zombie) :
    (x.state.Live ∧ x.state ≠ .zombie) ∧ x.context = (s.procs q).context := by
  have hused := hl.1.ne_used
  cases hchg with
  | visit op =>
    refine ⟨?_, visit_context op _⟩
    rcases visit_state op (s.procs q) with e | ⟨-, e⟩
    · rw [e]; exact hl
    · rw [e]; exact ⟨.inl rfl, by decide⟩
  | priv v hp => exact absurd hp hon
  | setkilled hp => exact absurd hp hon
  | yield hp => exact absurd hp hon
  | sleep chan hp => exact absurd hp hon
  | tidy hp => exact absurd hp hon
  | zombie status hp => exact absurd hp hon
  | pick found hfr hr => exact ⟨⟨.inr (.inr (.inl rfl)), nofun⟩, rfl⟩
  | alloc hu => exact absurd hu hl.1.ne_unused
  | context | undo | run => exact absurd (hold _ _ rfl q rfl).1 hused
  | reap hz => exact absurd hz hl.2
  | _ => exact ⟨hl, rfl⟩

theorem kstep_sysInv (h : Inv s) (hl : SysInv s) (hs : kstep s c a = some s') : SysInv s' := by
  obtain ⟨f, rest, hf, hstep⟩ := kstep_stepped h hs
  intro q g hm hsys
  by_cases hon : ∃ c', (s.cpus c').on = some q
  · obtain ⟨c', hon⟩ := hon
    rcases kstep_on h hf hs hon with e | ⟨rfl, ret, rfl, hkst, hproc⟩
    · exact .inl ⟨c', e⟩
    · -- the process leaves the CPU in `sched`
      obtain ⟨⟨-, hok, hres⟩, hstate⟩ := (h.stack_cons hf).ok hon
      refine .inr ⟨?_, by rw [hproc, hkst]⟩
      rw [hproc]
      simp only [hstate]
      obtain ⟨q, rfl⟩ | ⟨q, chan, lk, ret, rfl⟩ | ⟨r, status, rfl⟩ := Frame.resumes_cases hres
      · exact ⟨.inl rfl, nofun⟩
      · exact ⟨.inr (.inl rfl), nofun⟩
      · obtain rfl : rest = [.body q] := (h.procStack hon hf).2
        rw [hkst] at hm
        rcases List.mem_cons.mp hm with rfl | hm
        · cases hsys
        · rw [List.mem_singleton.mp hm] at hsys
          cases hsys
  · obtain ⟨instr, hi, he⟩ := kstep_instr hf hs
    have hne : (s.cpus c).on ≠ some q := fun e => hon ⟨c, e⟩
    rcases kstep_kst_other h hf hi he hne with e | ⟨e, -⟩
    · rw [e] at hm
      rcases hl q g hm hsys with hon' | ⟨hlive, hctx⟩
      · exact absurd hon' hon
      · rcases hstep.slot h hf q with hchg | ⟨hon', -⟩
        · obtain ⟨hlive', hctx'⟩ := hchg.goes_on (StackOk.fork_holds h hf) hne hlive
          exact .inr ⟨hlive', by rw [hctx', hctx, e]⟩
        · exact absurd hon' hne
    · rw [e] at hm
      rw [List.mem_singleton.mp hm] at hsys
      cases hsys

theorem SysInv.ok (hl : SysInv s) (h : Inv s) (hm : g ∈ s.kst q) (hsys : g.isSys = true) :
    g.Ok q := by
  by_cases hon : ∃ c, (s.cpus c).on = some q
  · obtain ⟨c, hon⟩ := hon
    have hst := h.stack c
    rw [StackOk, hon] at hst
    rw [← State.stackOf_of_on hon] at hm
    exact hst.1.ok_of_mem g hm
  · rcases hl q g hm (Frame.isFixed_of_isSys hsys) with hon' | ⟨hlive, hctx⟩
    · exact absurd hon' hon
    · have hpark := (h.saved q (fun c hc => hon ⟨c, hc⟩) hlive.1).1.1
      rw [hctx] at hpark
      exact hpark.ok_of_mem g hm

theorem SysInv.executes (hl : SysInv s) (h : Inv s) (hm : g ∈ s.kst q) (hsys : g.isSys = true)
    {l : Lock M} (hlk : l ∈ g.held) (hne : l ≠ .proc q) :
    ∃ c, (s.cpus c).on = some q ∧ s.locks l = some c := by
  have hheld : l ∈ heldBy (s.kst q) := List.mem_flatMap.mpr ⟨g, hm, hlk⟩
  by_cases hon : ∃ c, (s.cpus c).on = some q
  · obtain ⟨c, hon⟩ := hon
    exact ⟨c, hon, (h.locks c l).mpr (by rwa [State.stackOf_of_on hon])⟩
  · rcases hl q g hm (Frame.isFixed_of_isSys hsys) with hon' | ⟨hlive, hctx⟩
    · exact absurd hon' hon
    · have hpark := (h.saved q (fun c hc => hon ⟨c, hc⟩) hlive.1).1.2.1
      rw [hctx] at hpark
      rw [hpark] at hheld
      exact absurd (List.mem_singleton.mp hheld) hne

/-! ## Fields -/

theorem exec_procs (he : exec s c f rest instr = some s') :
    s'.procs = s.procs ∨ (∃ w k, instr = .write w k ∧ s'.procs = (s.apply c w).procs) ∨
      ∃ i k, instr = .swtchOut i k ∧
        s'.procs = update s.procs i { s.procs i with context := k ++ rest } := by
  cases instr with
  | swtchTo i k => cases he; exact .inl rfl
  | swtchOut i k => cases he; exact .inr (.inr ⟨i, k, rfl, rfl⟩)
  | _ =>
    obtain ⟨t, st, rfl, -, -, -, hprocs, -⟩ := exec_quiet he rfl
    rw [State.setStack_procs]
    exact hprocs.imp_right .inl

/-- The two kinds of stores that only one function makes. -/
def Write.isShared : Write M → Bool
  | .parent _ _ | .alloc _ _ => true
  | _ => false

/-- Who stores to `parent` or allocates a process: `fork` and `reparent`. -/
inductive SharedStore (s : State M) : Frame M → Write M → Prop
  | link (r j : Slot) (pid : Int) : SharedStore s (.fork r (.link j pid)) (.parent j (some r))
  | alloc (r j : Slot) (hu : (s.procs j).state = .unused) : SharedStore s (.fork r (.check j))
      (.alloc j { s.procs j with pid := s.nextpid, state := .used })
  | reparent (r j : Slot) (status : Int) (hj : j < NPROC) (hp : (s.procs j).parent = some r) :
      SharedStore s (.exit r status (.reparent j)) (.parent j (some s.initproc))

/-- The store leaves the `parent` fields alone and allocates nothing. -/
def Write.KeepsParents (s : State M) : Write M → Prop
  | .proc i q => q.parent = (s.procs i).parent
  | .parent _ _ | .alloc _ _ => False
  | _ => True

/-- Who calls `freeproc`: a `fork` that fails, and `wait`. -/
def FreesSlot (s : State M) (f : Frame M) (i : Slot) : Prop :=
  (∃ r, f = .fork r (.undo i)) ∨ (s.procs i).state = .zombie ∧ ∃ r addr, f = .wait r addr (.look i)

theorem visit_parent (op : ScanOp) (q : Proc M) : (visit op q).1.parent = q.parent := by
  cases op <;> simp only [visit, wakeupVisit, killVisit, sysFreezeVisit, sysUnfreezeVisit] <;>
    (repeat' split) <;> rfl

theorem code_write {x : Nat} {w : Write M} (hi : code s c x f = some (.write w k)) :
    w.KeepsParents s ∨ SharedStore s f w ∨
      ∃ i, w = .proc i (freeproc (s.procs i)) ∧ FreesSlot s f i := by
  cases f with
  | scheduler pc =>
    simp only [code, Option.some.injEq] at hi
    cases pc <;> simp only [schedulerCode] at hi <;> (repeat' split at hi) <;> cases hi <;>
      first | exact .inl rfl | exact .inl trivial
  | body | schedSwtch | panic => cases hi
  | forkret r pc =>
    simp only [code, Option.some.injEq] at hi
    cases pc <;> simp only [forkretCode] at hi <;> (repeat' split at hi) <;> cases hi <;>
      exact .inl trivial
  | yield r pc =>
    simp only [code, Option.some.injEq] at hi
    cases pc <;> cases hi
    exact .inl rfl
  | schedCheck ret =>
    simp only [code, Option.some.injEq, schedCode] at hi
    (repeat' split at hi) <;> cases hi <;> exact .inl trivial
  | sleep r chan lk pc ret =>
    simp only [code, Option.some.injEq] at hi
    cases pc <;> cases hi <;> exact .inl rfl
  | scan op i pc =>
    simp only [code, Option.some.injEq] at hi
    cases pc with
    | test => simp only [scanCode] at hi; (repeat' split at hi) <;> cases hi <;> exact .inl trivial
    | visit => cases hi; exact .inl (visit_parent op _)
    | rel r => cases r <;> cases hi
  | fork r pc =>
    simp only [code, Option.some.injEq] at hi
    cases pc with
    | check i =>
      simp only [forkCode] at hi
      split at hi <;> cases hi
      · exact .inr (.inl (.alloc r i ‹_›))
      · exact .inl trivial
    | link np pid => cases hi; exact .inr (.inl (.link r np pid))
    | undo i => cases hi; exact .inr (.inr ⟨i, rfl, .inl ⟨r, rfl⟩⟩)
    | _ =>
      simp only [forkCode] at hi
      (repeat' split at hi) <;> cases hi <;> first | exact .inl rfl | exact .inl trivial
  | exit r status pc =>
    simp only [code, Option.some.injEq] at hi
    cases pc with
    | reparent i =>
      simp only [exitCode] at hi
      split at hi
      · rename_i hlt
        split at hi <;> cases hi
        · exact .inr (.inl (.reparent r i status hlt ‹_›))
        · exact .inl trivial
      · cases hi
        exact .inl trivial
    | _ =>
      simp only [exitCode] at hi
      (repeat' split at hi) <;> cases hi <;> first | exact .inl rfl | exact .inl trivial
  | wait r addr pc =>
    cases pc with
    | look i =>
      simp only [code, waitCode] at hi
      split at hi
      · rename_i hz
        split at hi <;> cases hi
        · exact .inl trivial
        · exact .inr (.inr ⟨i, rfl, .inr ⟨hz, r, addr, rfl⟩⟩)
      · cases hi
        exact .inl trivial
    | _ =>
      simp only [code, waitCode] at hi
      (repeat' split at hi) <;> (try simp only [callSleep] at hi) <;> (repeat' split at hi) <;>
        cases hi <;> exact .inl trivial
  | client g =>
    simp only [code, clientCode] at hi
    cases hc : M.code g (myproc s c) (mypid s c) s.data x with
    | sleep n l k' =>
      rw [hc] at hi
      simp only [callSleep] at hi
      split at hi <;> cases hi <;> exact .inl trivial
    | _ =>
      rw [hc] at hi
      simp only at hi
      (repeat' split at hi) <;> cases hi <;> exact .inl trivial

/-- **Every store of the kernel**, as far as parents and allocation are concerned. -/
theorem instrOf_write {w : Write M} (hi : instrOf s c a f = some (.write w k)) :
    w.KeepsParents s ∨ SharedStore s f w ∨
      ∃ i, w = .proc i (freeproc (s.procs i)) ∧ FreesSlot s f i := by
  cases a with
  | go x => exact code_write hi
  | call call =>
    simp only [instrOf] at hi
    split at hi
    · cases call <;> simp only [callCode] at hi <;> (repeat' split at hi) <;> cases hi <;>
        first | exact .inl rfl | exact .inl trivial
    · cases hi
  | intr h => simp only [instrOf] at hi; split at hi <;> cases hi; exact .inl trivial
  | timer => simp only [instrOf] at hi; (repeat' split at hi) <;> cases hi; exact .inl trivial

theorem instrOf_shared {w : Write M} (hi : instrOf s c a f = some (.write w k))
    (hw : w.isShared = true) : SharedStore s f w := by
  rcases instrOf_write hi with hk | hs | ⟨i, rfl, -⟩
  · cases w <;> first | exact hk.elim | cases hw
  · exact hs
  · cases hw

/-- **Who gives a slot another parent**: `fork`, `reparent` and `freeproc`. -/
theorem kstep_parent (hf : s.stackOf c = f :: rest) (hs : kstep s c a = some s') (j : Slot) :
    (s'.procs j).parent = (s.procs j).parent ∨
      (∃ r pid, f = .fork r (.link j pid) ∧ s'.procs j = { s.procs j with parent := some r }) ∨
      (∃ r status, f = .exit r status (.reparent j) ∧ j < NPROC ∧ (s.procs j).parent = some r ∧
        s'.procs j = { s.procs j with parent := some s.initproc }) ∨
      s'.procs j = freeproc (s.procs j) ∧ ((∃ r, f = .fork r (.undo j)) ∨
        (s.procs j).state = .zombie ∧ ∃ r addr, f = .wait r addr (.look j)) := by
  obtain ⟨instr, hi, he⟩ := kstep_instr hf hs
  -- a store to another slot
  have hother : ∀ (i : Slot) (q : Proc M), j ≠ i → s'.procs = update s.procs i q →
      (s'.procs j).parent = (s.procs j).parent := fun i q hij e => by
    rw [e, update_of_ne hij]
  rcases exec_procs he with e | ⟨w, k, rfl, e⟩ | ⟨i, k, rfl, e⟩
  · exact .inl (by rw [e])
  · rcases instrOf_write hi with hk | hs | ⟨i, rfl, hfrees⟩
    · cases w with
      | proc i q =>
        by_cases hij : j = i
        · subst hij
          have hq : s'.procs j = q := by simp [e, State.apply, State.setProc]
          exact .inl (by rw [hq, hk])
        · exact .inl (hother i _ hij e)
      | alloc | parent => exact hk.elim
      | _ => exact .inl (by rw [e]; rfl)
    · cases hs with
      | link r i pid =>
        by_cases hij : j = i
        · subst hij
          exact .inr (.inl ⟨r, pid, rfl, by simp [e, State.apply, State.setProc]⟩)
        · exact .inl (hother i _ hij e)
      | alloc r i hu =>
        by_cases hij : j = i
        · subst hij
          exact .inl (by simp [e, State.apply, State.setProc])
        · exact .inl (hother i _ hij e)
      | reparent r i status hlt hp =>
        by_cases hij : j = i
        · subst hij
          exact .inr (.inr (.inl ⟨r, status, rfl, hlt, hp, by simp [e, State.apply, State.setProc]⟩))
        · exact .inl (hother i _ hij e)
    · by_cases hij : j = i
      · subst hij
        exact .inr (.inr (.inr ⟨by simp [e, State.apply, State.setProc], hfrees⟩))
      · exact .inl (hother i _ hij e)
  · by_cases hij : j = i
    · subst hij
      exact .inl (by simp [e])
    · exact .inl (hother i _ hij e)

@[simp] theorem State.setStack_initproc (st : List (Frame M)) :
    (s.setStack c st).initproc = s.initproc := by
  simp only [State.setStack]
  split <;> rfl

@[simp] theorem State.setStack_nextpid (st : List (Frame M)) :
    (s.setStack c st).nextpid = s.nextpid := by
  simp only [State.setStack]
  split <;> rfl

theorem kstep_initproc (hf : s.stackOf c = f :: rest) (hs : kstep s c a = some s') :
    s'.initproc = s.initproc := by
  obtain ⟨instr, -, he⟩ := kstep_instr hf hs
  cases instr with
  | write w k =>
    cases he
    rw [State.setStack_initproc]
    cases w <;> rfl
  | _ =>
    simp only [exec] at he
    (repeat' split at he) <;> cases he <;> first | rfl | exact State.setStack_initproc _

/-- **Who calls `allocpid`**: `allocproc`, on an unused slot. -/
theorem kstep_nextpid (hf : s.stackOf c = f :: rest) (hs : kstep s c a = some s') :
    s'.nextpid = s.nextpid ∨ ∃ r i, f = .fork r (.check i) ∧ (s.procs i).state = .unused ∧
      s'.nextpid = int32 (s.nextpid + 1) ∧
      s'.procs = update s.procs i { s.procs i with pid := s.nextpid, state := .used } := by
  obtain ⟨instr, hi, he⟩ := kstep_instr hf hs
  cases instr with
  | write w k =>
    cases he
    rw [State.setStack_nextpid]
    cases w with
    | alloc i q =>
      cases instrOf_shared hi rfl with
      | alloc r i hu => exact .inr ⟨r, i, rfl, hu, rfl, by simp [State.apply, State.setProc]⟩
    | _ => exact .inl rfl
  | _ =>
    simp only [exec] at he
    (repeat' split at he) <;> cases he <;>
      first | exact .inl rfl | exact .inl (State.setStack_nextpid _)

end Xv6Freezer
