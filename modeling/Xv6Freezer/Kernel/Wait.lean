import Xv6Freezer.Kernel.Exit
import Xv6Freezer.Kernel.Wakeup

/-! # Waiting for a child

Every step that gives a process a zombie child is made under `wait_lock` with a wakeup of that process under
way or done, so that a process asleep in `wait` while `wait_lock` is free has no zombie child (`WaitInv`).
-/

namespace Xv6Freezer

open Function (update update_self update_of_ne)

variable {M : Client} {init : M.Data → Prop} {s s' : State M} {c c' : CpuId} {p q r i j : Slot}
  {f g : Frame M} {rest : List (Frame M)} {a : Act M} {instr : Instr M} {status pid : Int}
  {addr : Nat}

def ZombieChild (s : State M) (p i : Slot) : Prop :=
  (s.procs i).parent = some p ∧ (s.procs i).state = .zombie

section

variable (h : Inv s) (hf : s.stackOf c = f :: rest) (hs : kstep s c a = some s')

include h hf hs

/-- **Who makes a zombie child**: system calls that hold `wait_lock`. -/
theorem zombieChild_step (hz : ZombieChild s' p i) : ZombieChild s p i ∨
      (∃ status, f = .exit i status .zombie ∧ (s.procs i).parent = some p) ∨
      ∃ r status, f = .exit r status (.reparent i) ∧ p = s.initproc ∧ i < NPROC ∧
        (s.procs i).parent = some r := by
  obtain ⟨hp, hz⟩ := hz
  have hstep := kstep_stepped_of h hf hs
  -- who becomes a zombie
  have hzb : (s.procs i).state = .zombie ∨ ∃ status, f = .exit i status .zombie := by
    rcases hstep.slot h hf i with hchg | ⟨-, ret, -, e⟩
    · generalize s'.procs i = x at hchg hz
      cases hchg with
      | visit op =>
        rcases visit_state op (s.procs i) with e | ⟨-, e⟩
        · exact .inl (e ▸ hz)
        · rw [e] at hz; cases hz
      | zombie status => exact .inr ⟨status, rfl⟩
      | yield | sleep | pick | alloc | undo | run | reap => cases hz
      | _ => exact .inl hz
    · exact .inl (by rw [e] at hz; exact hz)
  rcases kstep_parent hf hs i with e | ⟨r, pid, rfl, e⟩ | ⟨r, status, rfl, hlt, hr, e⟩ | ⟨e, -⟩
  · rw [e] at hp
    rcases hzb with hzb | ⟨status, e⟩
    · exact .inl ⟨hp, hzb⟩
    · exact .inr (.inl ⟨status, e, hp⟩)
  · rw [e, (StackOk.fork_holds h hf _ _ rfl i rfl).1] at hz
    cases hz
  · rw [e] at hp
    exact .inr (.inr ⟨r, status, rfl, (Option.some.inj hp).symm, hlt, hr⟩)
  · rw [e] at hz; cases hz

theorem zombieChild_or_held (hz : ZombieChild s' p i) :
    ZombieChild s p i ∨ f.kind = .sys ∧ Lock.wait ∈ f.held := by
  rcases zombieChild_step h hf hs hz with hz | ⟨status, rfl, -⟩ | ⟨r, status, rfl, -⟩
  · exact .inl hz
  · exact .inr ⟨rfl, by simp [Frame.held, ExitPc.held]⟩
  · exact .inr ⟨rfl, by simp [Frame.held, ExitPc.held]⟩

theorem not_sys_of_held
    (hl : SysInv s) (hm : g ∈ s.kst q) (hsys : g.isSys = true) {l : Lock M} (hlk : l ∈ g.held)
    (hnot : (s.cpus c).on = some q → f.kind ≠ .sys ∨ ∀ x, a ≠ .go x)
    (hk : f.kind = .sys) (hheld : l ∈ f.held) (hne : l ≠ .proc q) : False := by
  obtain ⟨c', hon, hlock⟩ := hl.executes h hm hsys hlk hne
  have hlock' : s.locks l = some c := (h.locks c l).mpr (by
    rw [hf]
    exact List.mem_append_left _ hheld)
  obtain rfl : c' = c := Option.some.inj (hlock.symm.trans hlock')
  rcases hnot hon with hk' | hx
  · exact hk' hk
  · obtain ⟨x, rfl, -⟩ := go_of_held h hf (List.ne_nil_of_mem hheld) hs
    exact hx x rfl

end

/-! ## What `wait` knows -/

/-- What `wait` of process `p` knows of the slots it has visited. -/
def WaitPc.Knows (s : State M) (p : Slot) : WaitPc → Prop
  | .scan k _ => ∀ i < k, ¬ ZombieChild s p i
  | .look k => (s.procs k).parent = some p ∧ ∀ i < k, ¬ ZombieChild s p i
  | .skip k => ∀ i ≤ k, ¬ ZombieChild s p i
  | .check _ => ∀ i, ¬ ZombieChild s p i
  | _ => True

/-- The frame that a frame of `sleep` returns to. -/
def Frame.wakesTo : Frame M → Option (Frame M)
  | .sleep _ _ _ _ ret => some ret
  | .schedCheck (.sleep _ _ _ _ ret) | .schedSwtch _ (.sleep _ _ _ _ ret) => some ret
  | _ => none

/-- `wait` goes on with a new scan after it has slept. -/
def WakesToScan (s : State M) : Prop :=
  ∀ q g p addr pc, g ∈ s.kst q → g.wakesTo = some (.wait p addr pc) → pc = .scan 0 false

theorem code_wakesTo {x : Nat} {pc : WaitPc} (hi : code s c x f = some instr) (hg : g ∈ instr.next)
    (hok : f.Ok q) (hw : g.wakesTo = some (.wait p addr pc)) :
    f.wakesTo = some (.wait p addr pc) ∨ pc = .scan 0 false := by
  cases code_follows hi hg with
  | schedSwtch =>
    obtain ⟨q, rfl⟩ | ⟨q, chan, lk, ret, rfl⟩ | ⟨q, status, rfl⟩ := Frame.resumes_cases hok.2 <;>
      exact .inl hw
  | schedRet =>
    obtain ⟨q, rfl⟩ | ⟨q, chan, lk, ret, rfl⟩ | ⟨q, status, rfl⟩ := Frame.resumes_cases hok.2.2 <;>
      exact .inl hw
  | sleepRet =>
    have := hok.2.2.1
    cases g <;> first | exact this.elim | cases hw
  | sleepRel | sleepSet | sleepSched | sleepUnlock | sleepReacq => exact .inl hw
  | waitSleep => cases hw; exact .inr rfl
  | _ => cases hw

theorem code_wait {x : Nat} {pc : WaitPc} (hok : f.Ok q) (hk : f.kind = .sys)
    (hi : code s c x f = some instr) (hg : .wait p addr pc ∈ instr.next) :
    (∃ pc0, f = .wait p addr pc0 ∧ waitCode s c p addr x pc0 = some instr) ∨
      f.wakesTo = some (.wait p addr pc) := by
  cases code_follows hi hg with
  | wait _ _ pc0 => exact .inl ⟨pc0, rfl, hi⟩
  | schedRet => exact hok.2.2.elim
  | sleepRet => exact .inr rfl

theorem kstep_wakesToScan (h : Inv s) (hw : WakesToScan s) (hs : kstep s c a = some s') :
    WakesToScan s' := by
  obtain ⟨f, rest, hf, -⟩ := kstep_stepped h hs
  intro q g p addr pc hm hg
  rcases kstep_kst_mem h hf hs hm with ⟨hm, -⟩ | ⟨hon, hkst, harises⟩ | rfl
  · exact hw q g p addr pc hm hg
  · have htop : f.wakesTo = some (.wait p addr pc) → pc = .scan 0 false :=
      hw q f p addr pc (hkst ▸ List.mem_cons_self)
    cases harises with
    | go hcode hm => exact (code_wakesTo hcode hm ((h.stack_cons hf).ok hon).1 hg).elim htop id
    | under => exact htop hg
    | _ => cases hg
  · cases hg

section Step

variable (h : Inv s) (hl : SysInv s) (F : Forest s) (hf : s.stackOf c = f :: rest)
  (hs : kstep s c a = some s')

include h hf hs

theorem no_zombieChild_of_held (hl : SysInv s) (hm : g ∈ s.kst q) (hsys : g.isSys = true)
    (hwait : Lock.wait ∈ g.held)
    (hnot : (s.cpus c).on = some q → f.kind ≠ .sys ∨ ∀ x, a ≠ .go x)
    (hz : ¬ ZombieChild s p i) : ¬ ZombieChild s' p i := by
  intro hz'
  rcases zombieChild_or_held h hf hs hz' with hz' | ⟨hk, hheld⟩
  · exact hz hz'
  · exact not_sys_of_held h hf hs hl hm hsys hwait hnot hk hheld (by simp)

theorem parent_of_look (hl : SysInv s) (F : Forest s) (hm : .wait p addr (.look i) ∈ s.kst q)
    (hnot : (s.cpus c).on = some q → f.kind ≠ .sys ∨ ∀ x, a ≠ .go x)
    (hp : (s.procs i).parent = some p) : (s'.procs i).parent = some p := by
  obtain rfl : p = q := hl.ok h hm rfl
  have hwait : Lock.wait ∈ (Frame.wait p addr (.look i) : Frame M).held := by
    simp [Frame.held, WaitPc.held]
  have hself : i ≠ p := by
    rintro rfl
    obtain ⟨rank, -, hrank⟩ := F.rank
    exact absurd (hrank i i hp) (Nat.lt_irrefl _)
  rcases kstep_parent hf hs i with e | ⟨r, pid, rfl, -⟩ | ⟨r, status, rfl, -⟩ | ⟨-, hfree⟩
  · rw [e, hp]
  · exact (not_sys_of_held h hf hs hl hm rfl hwait hnot rfl
      (by simp [Frame.held, ForkPc.held]) (by simp)).elim
  · exact (not_sys_of_held h hf hs hl hm rfl hwait hnot rfl
      (by simp [Frame.held, ExitPc.held]) (by simp)).elim
  · rcases hfree with ⟨r, rfl⟩ | ⟨-, r, addr', rfl⟩
    · exact (not_sys_of_held h hf hs hl hm rfl (l := .proc i) (by simp [Frame.held, WaitPc.held])
        hnot rfl (by simp [Frame.held, ForkPc.held]) (by simpa using hself)).elim
    · exact (not_sys_of_held h hf hs hl hm rfl hwait hnot rfl
        (by simp [Frame.held, WaitPc.held]) (by simp)).elim

theorem knows_step (hl : SysInv s) (F : Forest s) (hw : WakesToScan s)
    (hk : ∀ q p addr pc, .wait p addr pc ∈ s.kst q → pc.Knows s p) {pc : WaitPc}
    (hm : .wait p addr pc ∈ s'.kst q) : pc.Knows s' p := by
  rcases kstep_sys h hf hs hm rfl with ⟨hm0, hnot⟩ | ⟨-, rfl⟩ | ⟨hon, hk', x, instr, rfl, hi, hg⟩
  · have hknow := hk q p addr pc hm0
    have hkeep := fun (hwait : Lock.wait ∈ (Frame.wait p addr pc : Frame M).held) (i : Slot) =>
      no_zombieChild_of_held (p := p) (i := i) h hf hs hl hm0 rfl hwait hnot
    cases pc with
    | scan k b => exact fun i hi => hkeep (by simp [Frame.held, WaitPc.held]) i (hknow i hi)
    | look k =>
      exact ⟨parent_of_look h hf hs hl F hm0 hnot hknow.1,
        fun i hi => hkeep (by simp [Frame.held, WaitPc.held]) i (hknow.2 i hi)⟩
    | skip k => exact fun i hi => hkeep (by simp [Frame.held, WaitPc.held]) i (hknow i hi)
    | check b => exact fun i => hkeep (by simp [Frame.held, WaitPc.held]) i (hknow i)
    | _ => trivial
  · trivial
  · rcases code_wait ((h.stack_cons hf).ok hon).1 hk' hi hg with ⟨pc0, rfl, hcode⟩ | hwk
    · obtain ⟨q', hon', -, hm0, -⟩ := h.sys_mem hf rfl
      have hknow := hk q' p addr pc0 hm0
      have hkeep : ∀ i, ¬ ZombieChild s p i → ¬ ZombieChild s' p i := fun i hz hz' => by
        rcases zombieChild_step h hf hs hz' with hz' | ⟨_, e, -⟩ | ⟨_, _, e, -⟩
        · exact hz hz'
        · cases e
        · cases e
      cases pc0 with
      | acqWait =>
        cases hcode
        cases List.mem_singleton.mp hg
        exact fun i hi => absurd hi (Nat.not_lt_zero i)
      | scan k b =>
        simp only [waitCode] at hcode
        split at hcode
        · split at hcode <;> rename_i hlt hp <;> cases hcode <;> cases List.mem_singleton.mp hg
          · refine ⟨?_, fun i hi => hkeep i (hknow i hi)⟩
            rcases kstep_parent hf hs k with e | ⟨_, _, e, -⟩ | ⟨_, _, e, -⟩ | ⟨-, ⟨_, e⟩ | ⟨-, _, _, e⟩⟩
            · rw [e, hp]
            all_goals cases e
          · intro i hi
            rcases Nat.lt_succ_iff_lt_or_eq.mp hi with hi | rfl
            · exact hkeep i (hknow i hi)
            · exact hkeep i fun hz => hp hz.1
        · rename_i hge
          cases hcode
          cases List.mem_singleton.mp hg
          intro i
          refine hkeep i fun hz => ?_
          have hlt := F.bound i (by rw [hz.1]; exact Option.some_ne_none p)
          exact hknow i (hlt.trans_le (Nat.le_of_not_lt hge)) hz
      | look k =>
        simp only [waitCode] at hcode
        split at hcode
        · split at hcode <;> cases hcode <;> cases List.mem_singleton.mp hg <;> trivial
        · rename_i hnz
          cases hcode
          cases List.mem_singleton.mp hg
          intro i hi
          rcases Nat.lt_or_eq_of_le hi with hi | rfl
          · exact hkeep i (hknow.2 i hi)
          · exact hkeep i fun hz => hnz hz.2
      | skip k =>
        cases hcode
        cases List.mem_singleton.mp hg
        exact fun i hi => hkeep i (hknow i (Nat.le_of_lt_succ hi))
      | done k v => cases hcode; cases List.mem_singleton.mp hg; trivial
      | check b =>
        simp only [waitCode] at hcode
        (repeat' split at hcode) <;> cases hcode <;> (try simp only [callSleep] at hg) <;>
          (repeat' split at hg) <;> cases List.mem_singleton.mp hg <;> trivial
      | relWait v => cases hcode; cases hg
    · rw [hw q f p addr pc (by rw [← State.stackOf_of_on hon, hf]; exact .head _) hwk]
      exact fun i hi => absurd hi (Nat.not_lt_zero i)

end Step

/-! ## Owed wakeups -/

/-- Process `p` sleeps in `wait`, or is about to, and has released `wait_lock`. -/
def WaitBlocked (s : State M) (p : Slot) : Prop :=
  (∃ c lk ret, .sleep p (.proc p) lk .set ret ∈ s.stackOf c) ∨
    (s.procs p).state = .sleeping ∧ (s.procs p).chan = some (.proc p)

/-- The thread is in `wakeup(p)` with `wait_lock` held, and has not passed `p`. -/
def OwesWait (p : Slot) (st : List (Frame M)) : Prop :=
  ∃ f i pc rest, st = f :: rest ∧ f.core = .scan (.wakeup (some (.proc p))) i pc ∧
    Lock.wait ∈ heldBy rest ∧ Ahead i p pc

theorem waitBlocked_of_step (h : Inv s) (hsl : SleepInv s) (hf : s.stackOf c = f :: rest)
    (hs : kstep s c a = some s') (hb : WaitBlocked s' p) :
    WaitBlocked s p ∨ ∃ lk ret, f = .sleep p (.proc p) lk .rel ret := by
  rcases hb with ⟨c', lk, ret, hm⟩ | ⟨hst, hch⟩
  · rcases kstep_sleep_mem h hs hf hm rfl with hm | ⟨-, x, -, hfrom⟩
    · exact .inl (.inl ⟨c', lk, ret, hm⟩)
    · cases hfrom
      exact .inr ⟨lk, ret, rfl⟩
  · rcases kstep_asleep h hs hst with ⟨hst0, hkeep⟩ | ⟨chan, lk, ret, rest', hf', ha', -⟩
    · obtain ⟨chan, ret, ha0⟩ := hsl p hst0
      have e := (hkeep chan ret ha0).waits
      rw [hch] at e
      exact .inl (.inr ⟨hst0, by rw [ha0.waits, ← e]⟩)
    · have e := ha'.waits
      rw [hch] at e
      cases e
      exact .inl (.inl ⟨c, lk, ret, by rw [hf']; exact .head _⟩)

theorem not_running_of_waitBlocked (h : Inv s) (hb : WaitBlocked s p)
    (hf : s.stackOf c = f :: rest) (hon : (s.cpus c).on = some p) (hin : f.stateIn = .running) :
    ∃ lk ret, f = .sleep p (.proc p) lk .set ret := by
  rcases hb with ⟨c', lk, ret, hm⟩ | ⟨hst, -⟩
  · obtain ⟨rest', hf'⟩ := h.set_on_top hm
    have hstk := h.stack_cons hf'
    obtain ⟨p', hon'⟩ := hstk.on_some (fun _ => id) id
    obtain rfl : p = p' := (hstk.ok hon').1.1
    have hc : c = c' := by
      by_contra hne
      exact h.on_ne hne hon' hon
    subst hc
    rw [hf] at hf'
    exact ⟨lk, ret, (List.cons.inj hf').1⟩
  · have e := ((h.stack_cons hf).ok hon).2
    rw [hin, hst] at e
    cases e

theorem scanCode_owesWait {pc : ScanPc} (hp : p < NPROC) (hw : Lock.wait ∈ heldBy rest)
    (ha : Ahead i p pc) :
    OwesWait p ((scanCode s c (.wakeup (some (.proc p))) i pc).next ++ rest) ∨
      i = p ∧ (pc = .visit ∨ pc = .test ∧ myproc s c = some p) := by
  cases pc with
  | test =>
    have hle : i ≤ p := ha
    simp only [scanCode, if_pos (Nat.lt_of_le_of_lt hle hp)]
    by_cases hskip : myproc s c = some i
    · have hs : skips s c (.wakeup (some (.proc p))) i = true := by simp [skips, hskip]
      rw [if_pos hs]
      rcases Nat.lt_or_eq_of_le hle with hlt | rfl
      · exact .inl ⟨_, _, _, _, rfl, rfl, hw, hlt⟩
      · exact .inr ⟨rfl, .inr ⟨trivial, hskip⟩⟩
    · have hs : ¬ skips s c (.wakeup (some (.proc p))) i = true := by simp [skips, hskip]
      rw [if_neg hs]
      exact .inl ⟨_, _, _, _, rfl, rfl, hw, hle⟩
  | visit =>
    rcases Nat.lt_or_eq_of_le (show i ≤ p from ha) with hlt | rfl
    · have hnone : (visit (.wakeup (some (.proc p))) (s.procs i)).2 = none := by
        simp only [visit, wakeupVisit]
        split <;> rfl
      exact .inl ⟨_, _, _, _, rfl, rfl, hw, by rw [hnone]; exact hlt⟩
    · exact .inr ⟨rfl, .inl rfl⟩
  | rel v =>
    cases v with
    | none => exact .inl ⟨_, _, _, _, rfl, rfl, hw, Nat.succ_le_of_lt ha⟩
    | some v => exact ha.elim

/-- **A step of a thread that owes a wakeup**: it still owes it, unless its scan passes the slot. -/
theorem kstep_owesWait (h : Inv s) (hf : s.stackOf c = f :: rest) (hs : kstep s c a = some s')
    (hp : p < NPROC) (hb : WaitBlocked s p) (hb' : WaitBlocked s' p)
    (ho : OwesWait p (s.stackOf c')) : OwesWait p (s'.stackOf c') := by
  have hstep := kstep_stepped_of h hf hs
  by_cases hc : c' = c
  case neg => rw [hstep.stackOf_of_ne h hf hc]; exact ho
  subst hc
  obtain ⟨g, i, pc, rest', e, hcore, hw, ha⟩ := ho
  obtain ⟨rfl, rfl⟩ := List.cons.inj (hf.symm.trans e)
  have hbody : ∀ q, f ≠ .body q := by rintro q rfl; cases hcore
  have hheld : heldBy (f :: rest) ≠ [] := List.ne_nil_of_mem (List.mem_append_right _ hw)
  obtain ⟨x, instr, rfl, -, hcode, he⟩ := go_of_heldBy h hf hheld hbody hs
  have hquiet := code_quiet hcode (by rintro pc rfl; cases hcore) (by rintro q ret rfl; cases hcore)
  rcases exec_stackOf he hquiet.1 with e | ⟨msg, e⟩
  case inr => rw [e]; exact ⟨_, i, pc, _, rfl, hcore, hw, ha⟩
  rw [e]
  cases f with
  | scan op j pc' =>
    obtain ⟨rfl, rfl, rfl⟩ : op = .wakeup (some (.proc p)) ∧ j = i ∧ pc' = pc := by
      simpa [Frame.core] using hcore
    cases hcode
    rcases scanCode_owesWait hp hw ha with ho' | ⟨rfl, rfl | ⟨rfl, hself⟩⟩
    · exact ho'
    · -- the visit makes the process `RUNNABLE`
      exfalso
      have hl : Lock.proc j ∈ heldBy (s.stackOf c') := by simp [hf, Frame.held]
      rcases hb with ⟨c1, lk, ret, hm⟩ | ⟨hst, hch⟩
      · obtain ⟨rest1, hf1⟩ := h.set_on_top hm
        have hl1 : Lock.proc j ∈ heldBy (s.stackOf c1) :=
          mem_heldBy_of_mem hm (by simp [Frame.held, SleepPc.held])
        by_cases hc : c1 = c'
        · subst hc; rw [hf] at hf1; cases hf1
        · exact h.not_mem_of_ne hl hc hl1
      · have hrun : (s'.procs j).state = .runnable := by
          simp only [scanCode, exec] at he
          cases he
          simp [State.apply, State.setProc, visit, wakeupVisit, hst, hch]
        rcases hb' with ⟨c1, lk, ret, hm⟩ | ⟨hst', -⟩
        · obtain ⟨rest1, hf1⟩ := (kstep_inv h hs).set_on_top hm
          have hstk := (kstep_inv h hs).stack_cons hf1
          obtain ⟨p', hon'⟩ := hstk.on_some (fun _ => id) id
          obtain ⟨hok, hstate⟩ := hstk.ok hon'
          obtain rfl : j = p' := hok.1
          rw [hrun] at hstate
          cases hstate
        · rw [hst'] at hrun
          cases hrun
    · obtain ⟨lk, ret, e'⟩ :=
        not_running_of_waitBlocked h hb hf (h.on_of_current hf (fun _ => id) hself) rfl
      cases e'
  | panic msg f => cases hcode
  | _ => cases hcore

/-! ## The invariant -/

structure WaitInv (s : State M) : Prop where
  wakes : WakesToScan s
  knows : ∀ q p addr pc, .wait p addr pc ∈ s.kst q → pc.Knows s p
  /-- A process that has called `sleep` in `wait` and still holds `wait_lock` has no zombie child. -/
  entering : ∀ c p lk pc ret, .sleep p (.proc p) lk pc ret ∈ s.stackOf c → pc = .acq ∨ pc = .rel →
    ∀ i, ¬ ZombieChild s p i
  /-- `exit` does not become a zombie before it has woken its parent. -/
  exiting : ∀ c q status pc, .exit q status pc ∈ s.stackOf c → pc = .acqSelf ∨ pc = .zombie →
    ∀ p, (s.procs q).parent = some p → WaitBlocked s p → OwesWait p (s.stackOf c)
  /-- A process that sleeps in `wait` and has a zombie child is being woken. -/
  blocked : ∀ p i, WaitBlocked s p → ZombieChild s p i → ∃ c, OwesWait p (s.stackOf c)

theorem Forest.lt_of_parent (F : Forest s) (hp : (s.procs i).parent = some p) : p < NPROC :=
  F.lt_of_live (F.parent i p hp).live

theorem Inv.on_of_mem (h : Inv s) (hm : g ∈ s.stackOf c) (hns : ¬ g.OnScheduler)
    (hni : ∀ pc, ¬ g.IsScheduler pc) : ∃ q, (s.cpus c).on = some q ∧ g.Ok q ∧ g ∈ s.kst q := by
  have hst := h.stack c
  cases hon : (s.cpus c).on with
  | none =>
    rw [StackOk, hon] at hst
    obtain ⟨pc, hst, -⟩ := hst
    exfalso
    generalize s.stackOf c = st at hst hm
    induction st with
    | nil => cases hm
    | cons f rest ih =>
      rcases hst with ⟨hs, rfl⟩ | ⟨ho, hrest, -⟩
      · exact hni pc (List.mem_singleton.mp hm ▸ hs)
      · rcases List.mem_cons.mp hm with rfl | hm
        · exact hns ho
        · exact ih hrest hm
  | some q =>
    rw [StackOk, hon] at hst
    exact ⟨q, rfl, hst.1.ok_of_mem g hm, by rwa [← State.stackOf_of_on hon]⟩

theorem Inv.sleep_proc (h : Inv s) {lk : Lock M} {pc : SleepPc} {ret : Frame M}
    (hm : .sleep p (.proc r) lk pc ret ∈ s.stackOf c) :
    (s.cpus c).on = some p ∧ lk = .wait ∧ ret.kind = .sys := by
  obtain ⟨q, hon, ⟨rfl, -, hsl, hheld, -⟩, -⟩ := h.on_of_mem hm id fun _ => id
  cases ret with
  | wait q addr pc =>
    cases pc with
    | scan k b =>
      refine ⟨hon, ?_, rfl⟩
      simpa [Frame.held, WaitPc.held, eq_comm] using hheld
    | _ => exact hsl.elim
  | client g => obtain ⟨n, e⟩ := hsl; cases e
  | _ => exact hsl.elim

theorem ProcStack.heldBy_rest (h : ProcStack q (f :: rest)) (hf : ¬ f.isScan) : heldBy rest = [] := by
  have h2 := h.2
  cases hk : f.kind with
  | base => rw [hk] at h2; obtain rfl : rest = [] := h2; rfl
  | sys => rw [hk] at h2; obtain rfl : rest = [.body q] := h2; rfl
  | nested =>
    rw [hk] at h2
    rcases h2.2.2 with e | ⟨hs, -⟩
    · exact e
    · exact absurd hs hf

namespace WaitInv

section Step

variable (W : WaitInv s) (h : Inv s) (hsl : SleepInv s) (hl : SysInv s) (F : Forest s)
  (hf : s.stackOf c = f :: rest) (hs : kstep s c a = some s')

include W h hf hs

theorem entering_step {lk : Lock M} {pc : SleepPc} {ret : Frame M}
    (hm : .sleep p (.proc p) lk pc ret ∈ s'.stackOf c') (hpc : pc = .acq ∨ pc = .rel) (i : Slot) :
    ¬ ZombieChild s' p i := by
  have hearly : pc.early = true := by rcases hpc with rfl | rfl <;> rfl
  intro hz
  rcases kstep_sleep_mem h hs hf hm hearly with hm0 | ⟨rfl, x, rfl, hfrom⟩
  · -- the process holds `wait_lock`, so that nobody makes a zombie child
    rcases zombieChild_or_held h hf hs hz with hz | ⟨hk, hheld⟩
    · exact W.entering c' p lk pc ret hm0 hpc i hz
    · obtain ⟨hon, rfl, -⟩ := h.sleep_proc hm0
      have hl' : Lock.wait ∈ (Frame.sleep p (.proc p) .wait pc ret : Frame M).held := by
        rcases hpc with rfl | rfl <;> simp [Frame.held, SleepPc.held]
      have hmine : Lock.wait ∈ heldBy (s.stackOf c) := by
        rw [hf]
        exact List.mem_append_left _ hheld
      by_cases hc : c' = c
      · subst hc
        have hnd := h.nodup c'
        rw [hf, heldBy_cons] at hnd
        rw [hf] at hm0
        rcases List.mem_cons.mp hm0 with rfl | hm0
        · rcases zombieChild_step h hf hs hz with hz | ⟨_, e, -⟩ | ⟨_, _, e, -⟩
          · exact W.entering c' p .wait pc ret (by rw [hf]; exact .head _) hpc i hz
          · cases e
          · cases e
        · exact (List.nodup_append.mp hnd).2.2 _ hheld _ (mem_heldBy_of_mem hm0 hl') rfl
      · exact h.not_mem_of_ne hmine hc (mem_heldBy_of_mem hm0 hl')
  · have hkeep : (∀ i status, f ≠ .exit i status .zombie) →
        (∀ r status i, f ≠ .exit r status (.reparent i)) → ZombieChild s p i := fun h1 h2 => by
      rcases zombieChild_step h hf hs hz with hz | ⟨status, e, -⟩ | ⟨r, status, e, -⟩
      · exact hz
      · exact absurd e (h1 i status)
      · exact absurd e (h2 r status i)
    cases hfrom with
    | client hp hcode hchan hlk hret => cases hchan
    | wait hchan =>
      rename_i r addr b
      cases hchan
      obtain ⟨q, -, -, hmem, -⟩ := h.sys_mem hf rfl
      exact W.knows q p addr (.check b) hmem i (hkeep (by simp) (by simp))
    | rel =>
      exact W.entering c' p lk .acq ret (by rw [hf]; exact .head _) (.inl rfl) i
        (hkeep (by simp) (by simp))
    | set => rcases hpc with h | h <;> cases h

include hsl

omit W in
theorem waitBlocked_before (hm : g ∈ s.kst q) (hsys : g.isSys = true) (hwait : Lock.wait ∈ g.held)
    (hl : SysInv s) (hnot : (s.cpus c).on = some q → f.kind ≠ .sys ∨ ∀ x, a ≠ .go x)
    (hb : WaitBlocked s' p) : WaitBlocked s p := by
  rcases waitBlocked_of_step h hsl hf hs hb with hb | ⟨lk, ret, rfl⟩
  · exact hb
  · obtain ⟨-, rfl, hk⟩ := h.sleep_proc (by rw [hf]; exact .head _)
    exact (not_sys_of_held h hf hs hl hm hsys hwait hnot hk
      (by simp [Frame.held, SleepPc.held]) (by simp)).elim

include hl F

theorem exiting_step {pc : ExitPc} (hm : .exit q status pc ∈ s'.stackOf c')
    (hpc : pc = .acqSelf ∨ pc = .zombie) (hp : (s'.procs q).parent = some p)
    (hb : WaitBlocked s' p) : OwesWait p (s'.stackOf c') := by
  have hi' := kstep_inv h hs
  have hF' := F.step h hl hs
  have hsys : (Frame.exit q status pc : Frame M).isSys = true := by rcases hpc with rfl | rfl <;> rfl
  have hwait : Lock.wait ∈ (Frame.exit q status pc : Frame M).held := by
    rcases hpc with rfl | rfl <;> simp [Frame.held, ExitPc.held]
  obtain ⟨q', hon', rfl, hm'⟩ := hi'.on_of_mem hm id fun _ => id
  have huniq : ∀ c1, (s'.cpus c1).on = some q → c1 = c' := fun c1 hon1 => by
    by_contra hne
    exact hi'.on_ne hne hon' hon1
  rcases kstep_sys h hf hs hm' hsys with ⟨hm0, hnot⟩ | ⟨-, e⟩ | ⟨hon, hk, x, instr, rfl, hi, hg⟩
  · obtain ⟨c1, hon1, hlock⟩ := hl.executes h hm0 hsys hwait (by simp)
    -- the process stays on its CPU: `sched` is not called with `wait_lock` held
    have hon1' : (s'.cpus c1).on = some q := by
      rcases kstep_on h hf hs hon1 with e | ⟨rfl, ret, rfl, -⟩
      · exact e
      · have hst := h.procStack hon1 hf
        rw [← State.stackOf_of_on hon1, hf] at hm0
        rcases List.mem_cons.mp hm0 with e | hm0
        · cases e
        · have hnil := hst.heldBy_rest id
          have := mem_heldBy_of_mem hm0 hwait
          rw [hnil] at this
          cases this
    obtain rfl := huniq c1 hon1'
    have hpar : (s.procs q).parent = some p := by
      rcases kstep_parent hf hs q with e | ⟨r, pid, rfl, -⟩ | ⟨r, st, rfl, -⟩ | ⟨e, -⟩
      · rw [← e, hp]
      · exact absurd (StackOk.fork_holds h hf _ _ rfl q rfl).1 (h.live_of_on hon1).ne_used
      · exact (not_sys_of_held h hf hs hl hm0 hsys hwait hnot rfl
          (by simp [Frame.held, ExitPc.held]) (by simp)).elim
      · rw [e] at hp; cases hp
    have hb0 := waitBlocked_before h hsl hf hs hm0 hsys hwait hl hnot hb
    exact kstep_owesWait h hf hs (F.lt_of_parent hpar) hb0 hb
      (W.exiting c1 q status pc (by rwa [State.stackOf_of_on hon1]) hpc p hpar hb0)
  · rcases hpc with rfl | rfl <;> cases e
  · obtain ⟨pc0, rfl, rfl⟩ := code_exit ((h.stack_cons hf).ok hon).1 hk hi hg
      (by rcases hpc with rfl | rfl <;> decide)
    have hon1' : (s'.cpus c).on = some q := by
      rcases kstep_on h hf hs hon with e | ⟨-, ret, e, -⟩
      · exact e
      · cases e
    obtain rfl := huniq c hon1'
    have hpar : (∀ i, pc0 ≠ .reparent i) → (s.procs q).parent = some p := fun hne => by
      rcases kstep_parent hf hs q with e | ⟨_, _, e, -⟩ | ⟨_, _, e, -⟩ | ⟨-, ⟨_, e⟩ | ⟨-, _, _, e⟩⟩
      · rw [← e, hp]
      · cases e
      · cases e; exact absurd rfl (hne q)
      · cases e
      · cases e
    cases pc0 with
    | wakeParent =>
      simp only [kstep, hf, code, exitCode, Option.bind_some] at hs
      have hk := exec_jump_kst hs hon
      rw [State.stackOf_of_on hon', hk, hpar (by simp)]
      exact ⟨_, 0, .test, _, rfl, rfl, by simp [Frame.held, ExitPc.held], Nat.zero_le p⟩
    | acqSelf =>
      -- the parent has been woken
      have hb0 : WaitBlocked s p := by
        rcases waitBlocked_of_step h hsl hf hs hb with hb | ⟨lk, ret, e⟩
        · exact hb
        · cases e
      obtain ⟨g, i, pc', rest', e, hcore, -⟩ := W.exiting c q status .acqSelf
        (by rw [hf]; exact .head _) (.inl rfl) p (hpar (by simp)) hb0
      obtain ⟨rfl, -⟩ := List.cons.inj (hf.symm.trans e)
      cases hcore
    | _ =>
      exfalso
      simp only [exitCode] at hg
      (repeat' split at hg) <;> simp only [Instr.next, Instr.jump, Instr.fail, List.mem_cons,
        List.not_mem_nil, or_false, reduceCtorEq, false_or, Frame.exit.injEq, true_and] at hg <;>
        subst hg <;> rcases hpc with e | e <;> cases e

omit hl in
theorem blocked_step (hb : WaitBlocked s' p) (hz : ZombieChild s' p i) :
    ∃ c, OwesWait p (s'.stackOf c) := by
  rcases waitBlocked_of_step h hsl hf hs hb with hb0 | ⟨lk, ret, rfl⟩
  · rcases zombieChild_step h hf hs hz with hz0 | ⟨status, rfl, hp⟩ | ⟨r, status, rfl, rfl, hlt, hr⟩
    · obtain ⟨c', ho⟩ := W.blocked p i hb0 hz0
      exact ⟨c', kstep_owesWait h hf hs (F.lt_of_parent hz0.1) hb0 hb ho⟩
    · -- the child has woken its parent
      obtain ⟨g, j, pc, rest', e, hcore, -⟩ := W.exiting c i status .zombie
        (by rw [hf]; exact .head _) (.inr rfl) p hp hb0
      obtain ⟨rfl, -⟩ := List.cons.inj (hf.symm.trans e)
      cases hcore
    · -- `reparent` calls `wakeup(initproc)` next
      obtain ⟨q, hon, rfl, -, -⟩ := h.sys_mem hf rfl
      obtain ⟨x, rfl, -⟩ := go_of_held h hf (by simp [Frame.held, ExitPc.held]) hs
      simp only [kstep, hf, code, exitCode, if_pos hlt, if_pos hr, Option.bind_some] at hs
      cases hs
      refine ⟨c, .scan (.wakeup (some (.proc s.initproc))) 0 .test, 0, .test,
        .exit r status (.reparent (i + 1)) :: rest, ?_, rfl, ?_, Nat.zero_le _⟩
      · simp
      · simp [Frame.held, ExitPc.held]
  · -- the process releases `wait_lock` now: it has no zombie child
    exfalso
    rcases zombieChild_step h hf hs hz with hz0 | ⟨_, e, -⟩ | ⟨_, _, e, -⟩
    · exact W.entering c p lk .rel ret (by rw [hf]; exact .head _) (.inr rfl) i hz0
    · cases e
    · cases e

end Step

theorem step (W : WaitInv s) (h : Inv s) (hsl : SleepInv s) (hl : SysInv s) (F : Forest s)
    (hs : kstep s c a = some s') : WaitInv s' := by
  obtain ⟨f, rest, hf, -⟩ := kstep_stepped h hs
  exact
    { wakes := kstep_wakesToScan h W.wakes hs
      knows := fun _ _ _ _ hm => knows_step h hf hs hl F W.wakes W.knows hm
      entering := fun _ _ _ _ _ hm hpc => W.entering_step h hf hs hm hpc
      exiting := fun _ _ _ _ hm hpc _ hp hb => W.exiting_step h hsl hl F hf hs hm hpc hp hb
      blocked := fun _ _ hb hz => W.blocked_step h hsl F hf hs hb hz }

end WaitInv

theorem waitInv_boot (tf pt cwd : Nat) (d : M.Data) : WaitInv (boot tf pt cwd d) := by
  refine ⟨nofun, nofun, fun c p lk pc ret hm => ?_, fun c q status pc hm => ?_, fun p i hb => ?_⟩
  · simp [boot, State.stackOf] at hm
  · simp [boot, State.stackOf] at hm
  · rcases hb with ⟨c, lk, ret, hm⟩ | ⟨hst, -⟩
    · simp [boot, State.stackOf] at hm
    · obtain ⟨chan, ret, ha⟩ := boot_sleepInv tf pt cwd d p hst
      obtain ⟨f, rest, hk, -⟩ := ha.top
      simp [boot] at hk

theorem reachable_waitInv (h : (kernel M init).Reachable s) : TableInv s ∧ WaitInv s := by
  have hall : TableInv s ∧ SleepInv s ∧ WaitInv s := by
    refine h.invariant (I := fun s => TableInv s ∧ SleepInv s ∧ WaitInv s) ?_ ?_
    · intro s h0
      have ht := reachable_forest (M := M) ⟨s, h0, Lib.Lts.RunIf.refl s⟩
      obtain ⟨tf, pt, cwd, d, -, rfl⟩ := h0
      exact ⟨ht, boot_sleepInv tf pt cwd d, waitInv_boot tf pt cwd d⟩
    · rintro s ⟨c, a⟩ s' ⟨ht, hsl, W⟩ - hs
      exact ⟨kstep_tableInv ht hs, kstep_sleepInv hsl ht.1 hs,
        W.step ht.1 hsl ht.2.1 ht.2.2 hs⟩
  exact ⟨hall.1, hall.2.2⟩

/-! ## The contract of `exit` and `wait` -/

theorem not_reaps_of_freed (h : Inv s) (hu : (s.procs i).state = .unused)
    (hr : (kernel M init).RunIf (fun t b => ∀ pid, givesPid t b ≠ some (i, pid)) s s')
    (b : CpuId × Act M) : event s' b ≠ .reaps i := by
  have hu' : (s'.procs i).state = .unused :=
    (hr.carry (I := Inv) (P := fun t => (t.procs i).state = .unused) h hu
      (fun _ _ _ h hs => kstep_inv h hs) fun t b t' ht hu hno hs => by
        rcases kstep_pid ht hs i with ⟨-, hiff⟩ | ⟨-, hu⟩ | ⟨hg, -⟩
        · exact hiff.mpr hu
        · exact hu
        · exact absurd hg (hno _)).2
  intro he
  obtain ⟨-, -, -, -, hz⟩ := event_reaps he
  rw [hu'] at hz
  cases hz

theorem parent_run (h : Inv s) (hl : (s.procs i).state.Live) (hp : (s.procs i).parent = some r)
    (hr : (kernel M init).RunIf (fun t b => event t b ≠ .reaps i) s s') :
    (s'.procs i).parent = some r ∨ (s'.procs i).parent = some s.initproc := by
  have hrun := hr.carry (I := Inv) (P := fun t => t.initproc = s.initproc ∧
      (t.procs i).state.Live ∧
      ((t.procs i).parent = some r ∨ (t.procs i).parent = some s.initproc)) h ⟨rfl, hl, .inl hp⟩
    (fun _ _ _ h hs => kstep_inv h hs) ?_
  · exact hrun.2.2.2
  · rintro t ⟨c, a⟩ t' ht ⟨hinit, hl, hp⟩ hno hs
    obtain ⟨f, rest, hf, hstep⟩ := kstep_stepped ht hs
    have hfork : ∀ r pc, f = .fork r pc → pc.claims ≠ some i := by
      rintro r pc rfl hc
      exact hl.ne_used (StackOk.fork_holds ht hf _ _ rfl i hc).1
    have hnu : (t'.procs i).state ≠ .unused := fun hu => by
      rcases hstep.slot ht hf i with hchg | ⟨-, ret, -, e⟩
      · rcases kstep_unused ht hs hf hchg hu with e | e | ⟨r, e⟩
        · exact hl.ne_unused e
        · exact hno e
        · exact hfork _ _ e rfl
      · rw [e] at hu; exact hl.ne_unused hu
    refine ⟨(kstep_initproc hf hs).trans hinit, ?_, ?_⟩
    · rcases hstep.slot ht hf i with hchg | ⟨-, ret, -, e⟩
      · exact (hchg.live_stays (StackOk.fork_holds ht hf) hl hnu).1
      · rw [e]; exact hl
    · rcases kstep_parent hf hs i with e | ⟨_, _, e, -⟩ | ⟨_, _, -, -, -, e⟩ | ⟨e, -⟩
      · rw [e]; exact hp
      · exact absurd rfl (hfork _ _ e)
      · rw [e, ← hinit]; exact .inr rfl
      · rw [e] at hnu; exact absurd rfl hnu

/-- **The contract of `exit` and `wait`**, in every reachable state of every interleaving.

* A `wait` that takes slot `i` is made by the parent of `i`, goes on to return the pid of `i`, and the
  slot is not taken again before it is allocated again.
* The parent of a process that has not been waited for is the one it had, or `initproc`.
* The `wait` that takes a process after it has called `exit(status)` finds its pid and `status`.
* A `wait` whose `copyout` fails changes no slot and goes on to return -1.
* While `wait_lock` is free, no process is `SLEEPING` in `wait` with a zombie child. -/
theorem exit_wait (h : (kernel M init).Reachable s) :
    (∀ c a i s', event s (c, a) = .reaps i → kstep s c a = some s' →
      ∃ r addr rest, s.stackOf c = .wait r addr (.look i) :: rest ∧ (s.cpus c).on = some r ∧
        (s.procs i).parent = some r ∧
        s'.stackOf c = .wait r addr (.done i (s.procs i).pid) :: rest ∧
        ∀ s₂ b, (kernel M init).RunIf (fun t b => ∀ pid, givesPid t b ≠ some (i, pid)) s' s₂ →
          event s₂ b ≠ .reaps i) ∧
    (∀ i r s₂, (s.procs i).state.Live → (s.procs i).parent = some r →
      (kernel M init).RunIf (fun t b => event t b ≠ .reaps i) s s₂ →
      (s₂.procs i).parent = some r ∨ (s₂.procs i).parent = some s.initproc) ∧
    (∀ c p status s₁, (s.cpus c).on = some p → kstep s c (.call (.exit status)) = some s₁ →
      ∀ s₂ c₂ a₂ s₃, (kernel M init).RunIf (fun t b => event t b ≠ .reaps p) s₁ s₂ →
      event s₂ (c₂, a₂) = .reaps p → kstep s₂ c₂ a₂ = some s₃ →
      (s₂.procs p).pid = (s.procs p).pid ∧ (s₂.procs p).xstate = status) ∧
    (∀ c r addr i rest s', s.stackOf c = .wait r addr (.look i) :: rest →
      (s.procs i).state = .zombie → addr ≠ 0 → kstep s c (.go 0) = some s' →
      s'.procs = s.procs ∧ s'.stackOf c = .wait r addr (.done i (-1)) :: rest) ∧
    (∀ c r addr i v rest x s', s.stackOf c = .wait r addr (.done i v) :: rest →
      kstep s c (.go x) = some s' → s'.stackOf c = .wait r addr (.relWait v) :: rest) ∧
    (∀ c r addr v rest x s', s.stackOf c = .wait r addr (.relWait v) :: rest →
      kstep s c (.go x) = some s' → s'.stackOf c = rest) ∧
    (s.locks .wait = none → ∀ p i, (s.procs p).state = .sleeping →
      (s.procs p).chan = some (.proc p) → ¬ ZombieChild s p i) := by
  obtain ⟨⟨hinv, hl, F⟩, W⟩ := reachable_waitInv h
  -- `release` of a lock that the frame holds
  have hrel : ∀ {c f rest l k s'}, s.stackOf c = f :: rest → l ∈ f.held →
      exec s c f rest (.release l k) = some s' → s'.stackOf c = k ++ rest := by
    intro c f rest l k s' hf hheld he
    have hlock : s.locks l = some c := (hinv.locks c l).mpr (by
      rw [hf]
      exact List.mem_append_left _ hheld)
    simp only [exec, hlock, ne_eq, not_true_eq_false, if_false] at he
    cases he
    simp
  refine ⟨fun c a i s' he hs => ?_, fun i r s₂ hlive hp hr => parent_run hinv hlive hp hr,
    fun c p status s₁ hon hs s₂ c₂ a₂ s₃ hr he hs₂ => ?_, fun c r addr i rest s' hf hz haddr hs => ?_,
    fun c r addr i v rest x s' hf hs => ?_, fun c r addr v rest x s' hf hs => ?_,
    fun hfree p i hst hch hz => ?_⟩
  · obtain ⟨r, addr, rest, hf, hz⟩ := event_reaps he
    obtain ⟨q, hon, rfl, hm, -⟩ := hinv.sys_mem hf rfl
    have hfree := kstep_reaps he hs
    refine ⟨r, addr, rest, hf, hon, (W.knows r r addr (.look i) hm).1, ?_, fun s₂ b hr =>
      not_reaps_of_freed (kstep_inv hinv hs) (by rw [hfree]; rfl) hr b⟩
    obtain ⟨x, rfl, hev⟩ := go_of_held hinv hf (by simp [Frame.held, WaitPc.held]) hs
    have hcopy : ¬ (addr ≠ 0 ∧ x = 0) := fun hx => by
      rw [hev] at he
      simp [frameEvent, hx] at he
    simp only [kstep, hf, code, waitCode, if_pos hz, if_neg hcopy, Option.bind_some] at hs
    cases hs
    simp
  · have hs₁ := kstep_tableInv ⟨hinv, hl, F⟩ hs
    obtain ⟨ht, hx⟩ := (exits_of_call hinv hon hs).run hs₁ hr
    exact hx.delivered ht.1 ht.2.1 he
  · simp only [kstep, hf, code, waitCode, if_pos hz, and_true, if_pos haddr, Option.bind_some] at hs
    cases hs
    exact ⟨by simp [State.apply], by simp⟩
  · simp only [kstep, hf, code, waitCode, Option.bind_some] at hs
    exact hrel hf (by simp [Frame.held, WaitPc.held]) hs
  · simp only [kstep, hf, code, waitCode, Option.bind_some] at hs
    exact hrel hf (by simp [Frame.held, WaitPc.held]) hs
  · obtain ⟨c, f, j, pc, rest, hf, -, hw, -⟩ := W.blocked p i (.inr ⟨hst, hch⟩) hz
    have hlock : s.locks .wait = some c := (hinv.locks c .wait).mpr (by
      rw [hf]
      exact List.mem_append_right _ hw)
    rw [hfree] at hlock
    cases hlock

/-- The child calls `exit(7)`, and its parent is about to take it. -/
def waitTrace : List (CpuId × Act idleClient) :=
  forkTrace ++ goes 1 10 ++ [(1, .call (.exit 7))] ++ goes 1 286 ++ [(0, .call (.wait 0))] ++ goes 0 3

set_option maxRecDepth 100000 in
theorem exit_wait_child : ∃ s s', idleKernel.Reachable s ∧ event s (0, .go 1) = .reaps 1 ∧
    kstep s 0 (.go 1) = some s' ∧ (s.procs 1).xstate = 7 ∧
    ∃ r addr rest, s.stackOf 0 = .wait r addr (.look 1) :: rest ∧ (s.procs 1).parent = some r ∧
      s'.stackOf 0 = .wait r addr (.done 1 (s.procs 1).pid) :: rest := by
  obtain ⟨s, hs, hp⟩ := Lib.Lts.reachable_of_execs waitTrace
    (fun s : State idleClient => decide (event s (0, .go 1) = .reaps 1 ∧
      (kstep s 0 (.go 1)).isSome = true ∧ (s.procs 1).xstate = 7)) idleKernel_init (by decide)
  obtain ⟨he, hsome, hx⟩ := of_decide_eq_true hp
  obtain ⟨s', hs'⟩ := Option.isSome_iff_exists.mp hsome
  obtain ⟨r, addr, rest, hf, -, hpar, hf', -⟩ := (exit_wait hs).1 0 (.go 1) 1 s' he hs'
  exact ⟨s, s', hs, he, hs', hx, r, addr, rest, hf, hpar, hf'⟩

end Xv6Freezer
