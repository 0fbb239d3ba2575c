import Xv6Freezer.Kernel.Frames

/-! # Panics and deadlocks

`wait_lock` and the `p->lock`s are taken in an order (`lock_order`). No CPU takes a spinlock that it holds or
releases one that it does not hold (`exec_next`), the checks of `sched` pass, and a zombie is never resumed. Two
panics are left (`kernel_panics`).
-/

namespace Xv6Freezer

variable {M : Client} {init : M.Data → Prop} {s s' : State M} {c : CpuId} {p : Slot} {f g : Frame M}
  {l l' : Lock M} {x : Nat} {a : Act M} {instr : Instr M} {k rest : List (Frame M)}

/-! ## Instructions -/

/-- The lock order: `l` may be taken by who holds `l'`. -/
def Lock.Before : Lock M → Lock M → Prop
  | .client a, .client b => a ≠ b
  | .client _, _ | .wait, .proc _ => True
  | _, _ => False

theorem Lock.not_before_self : ¬l.Before l := by
  cases l <;> simp [Lock.Before]

/-- The panics that occur in the thread of a process, or of a scheduler; and no zombie executes. -/
def Frame.Sane (initproc : Slot) (on : Option Slot) : Frame M → Prop
  | .panic msg f =>
    match on with
    | some p => p = initproc ∧ msg = "init exiting" ∧ ∃ status, f = .exit p status .start
    | none => msg = "kerneltrap" ∧ ∃ k, f = .client k
  | .exit _ _ .dead => False
  | _ => True

/-- The instruction of frame `f` takes a lock in the lock order, or releases one that is held, and goes on with
frames that are `Sane`. -/
def Instr.Sane (s : State M) (c : CpuId) (f : Frame M) : Instr M → Prop
  | .acquire l k => ((∀ l' ∈ f.held, l'.Before l) ∧ (f.isScan → ∃ i, l = .proc i)) ∧ ∀ g ∈ k, g.Sane s.initproc (s.cpus c).on
  | .release l k => l ∈ f.held ∧ ∀ g ∈ k, g.Sane s.initproc (s.cpus c).on
  | .write _ k => ∀ g ∈ k, g.Sane s.initproc (s.cpus c).on
  | .swtchTo _ _ | .swtchOut _ _ => True

theorem clientCode_sane {k : M.Frame} (h : Inv s) (hi : clientCode s c k x = some instr) :
    instr.Sane s c (.client k) := by
  have hlocked := M.code_locked k (myproc s c) (mypid s c) s.data x
  have hnone : myproc s c = none → (s.cpus c).on = none := fun hp => by
    cases hon : (s.cpus c).on with
    | none => rfl
    | some q => cases hp.symm.trans (h.busy c q hon).1
  simp only [clientCode] at hi
  cases hc : M.code k (myproc s c) (mypid s c) s.data x with
  | acquire lk k' =>
    rw [hc] at hi hlocked
    cases hi
    refine ⟨⟨fun l' hl' => ?_, by simp [Frame.isScan]⟩, by simp [Frame.Sane]⟩
    obtain ⟨b, hb, rfl⟩ := List.mem_map.mp hl'
    exact fun e => hlocked.1 (e ▸ hb)
  | release lk k' =>
    rw [hc] at hi hlocked
    cases hi
    exact ⟨List.mem_map_of_mem (hlocked.mem_iff.mpr (.head _)), by simp [Frame.Sane]⟩
  | _ =>
    rw [hc] at hi hlocked
    simp only [callSleep] at hi
    (repeat' split at hi) <;> cases hi <;>
      simp_all [Instr.Sane, Instr.jump, Instr.fail, Frame.Sane, Stmt.Locked]

/-- The next instruction of a sane frame leads to sane frames. -/
theorem code_sane (h : Inv s) (hf : s.stackOf c = f :: rest) (hsane : f.Sane s.initproc (s.cpus c).on)
    (hcode : code s c x f = some instr) : instr.Sane s c f := by
  have hst := h.stack_cons hf
  -- the code of a process knows which one it is
  have hproc : ∀ {p}, (s.cpus c).on = some p → myproc s c = some p := fun hon => (h.busy c _ hon).1
  cases f with
  | body | panic => cases hcode
  | client k => exact clientCode_sane h hcode
  | schedSwtch => cases hcode; trivial
  | schedCheck ret =>
    obtain ⟨p, -, e⟩ := h.schedCode_eq hf
    simp only [code, e, Option.some.injEq] at hcode
    subst hcode
    simp [Instr.Sane, Instr.jump, Frame.Sane]
  | sleep q chan lk pc ret =>
    obtain ⟨p, hon⟩ := hst.on_some (fun _ => id) id
    obtain ⟨-, -, hret, -, hne⟩ := (hst.ok hon).1
    have hlk : lk.Before (.proc q) := by
      cases lk with
      | proc i => exact absurd rfl (hne i)
      | _ => trivial
    cases hcode
    obtain ⟨k, n, rfl, -⟩ | ⟨p, addr, i, b, rfl, -⟩ := Frame.sleeps_cases hret <;> cases pc <;>
      simp [sleepCode, Instr.Sane, Frame.Sane, Frame.held, SleepPc.held, Frame.isScan, hlk]
  | exit q status pc =>
    obtain ⟨p, hon⟩ := hst.on_some (fun _ => id) id
    obtain rfl : q = p := (hst.ok hon).1
    cases hcode
    cases pc with
    | dead => exact hsane.elim
    | _ =>
      simp only [exitCode]
      (repeat' split) <;> simp_all [Instr.Sane, Instr.jump, Instr.fail, Frame.Sane, Frame.held, ExitPc.held,
        Frame.isScan, Lock.Before]
  | wait q addr pc =>
    obtain ⟨p, hon⟩ := hst.on_some (fun _ => id) id
    cases pc <;> simp only [code, waitCode, callSleep, hproc hon] at hcode <;> (repeat' split at hcode) <;>
      cases hcode <;>
      simp [Instr.Sane, Instr.jump, Frame.Sane, Frame.held, WaitPc.held, Frame.isScan, Lock.Before]
  | forkret q pc =>
    obtain ⟨p, hon⟩ := hst.on_some (fun _ => id) id
    obtain rfl : q = p := (hst.ok hon).1
    cases hcode
    cases pc <;> simp only [forkretCode, hproc hon] <;> (repeat' split) <;>
      simp [Instr.Sane, Instr.jump, Frame.Sane, Frame.held]
  | scan op i pc =>
    cases hcode
    cases pc with
    | rel r => cases r <;> simp [scanCode, Instr.Sane, Frame.Sane, Frame.held]
    | _ =>
      simp only [scanCode]
      (repeat' split) <;> simp [Instr.Sane, Instr.jump, Frame.Sane, Frame.held]
  | _ =>
    rename_i pc
    cases hcode
    cases pc <;> simp only [schedulerCode, yieldCode, forkCode] <;> (repeat' split) <;>
      simp [Instr.Sane, Instr.jump, Frame.Sane, Frame.held, SchedulerPc.held, ForkPc.held, Frame.isScan]

theorem instrOf_sane (h : Inv s) (hf : s.stackOf c = f :: rest) (hsane : f.Sane s.initproc (s.cpus c).on)
    (hi : instrOf s c a f = some instr) : instr.Sane s c f := by
  cases a with
  | go x => exact code_sane h hf hsane hi
  | call call =>
    simp only [instrOf] at hi
    split at hi
    case h_2 => cases hi
    cases call <;> simp only [callCode] at hi <;> (repeat' split at hi) <;> cases hi <;>
      simp [Instr.Sane, Instr.jump, Frame.Sane]
  | _ =>
    simp only [instrOf] at hi
    (repeat' split at hi) <;> cases hi
    all_goals simpa [Instr.Sane, Instr.jump, Frame.Sane] using hsane

theorem Instr.Sane.before (h : Inv s) (hf : s.stackOf c = f :: rest) (hsane : (Instr.acquire l k).Sane s c f)
    (hl : s.locks l' = some c) : l'.Before l := by
  obtain ⟨⟨hheld, hscan⟩, -⟩ := hsane
  have hm := (h.locks c l').mp hl
  rw [hf, heldBy_cons, List.mem_append] at hm
  rcases hm with hm | hm
  · exact hheld l' hm
  rcases (h.stack_cons hf).heldBelow with hb | ⟨hs, hb⟩
  · rw [hb] at hm
    cases hm
  · -- the caller of `wakeup` holds no lock of a process
    obtain ⟨i, rfl⟩ := hscan hs
    cases l' with
    | proc j => exact absurd hm (hb j)
    | _ => trivial

/-- **No spinlock panics**: what follows an instruction that switches no stack. -/
theorem exec_next (h : Inv s) (hf : s.stackOf c = f :: rest) (hsane : instr.Sane s c f)
    (he : exec s c f rest instr = some s') (hsw : instr.isSwtch = false) :
    s'.stackOf c = instr.next ++ rest ∧ ∀ g ∈ instr.next, g.Sane s.initproc (s.cpus c).on := by
  cases instr with
  | acquire l k =>
    have hnot : s.locks l ≠ some c := fun e => Lock.not_before_self (hsane.before h hf e)
    simp only [exec, if_neg hnot] at he
    split at he <;> cases he
    exact ⟨by simp [Instr.next], hsane.2⟩
  | release l k =>
    have hl : s.locks l = some c := (h.locks c l).mpr (by
      rw [hf]
      exact List.mem_append_left _ hsane.1)
    simp only [exec, hl, ne_eq, not_true_eq_false, if_false] at he
    cases he
    exact ⟨by simp [Instr.next], hsane.2⟩
  | write w k =>
    cases he
    exact ⟨by simp [Instr.next], hsane⟩
  | swtchTo | swtchOut => cases hsw

/-! ## The invariant -/

/-- No thread has come to another panic, and none is going to execute the end of `exit`. -/
structure Sane (s : State M) : Prop where
  stack : ∀ c, ∀ g ∈ s.stackOf c, g.Sane s.initproc (s.cpus c).on
  parked : ∀ p, (∀ c, (s.cpus c).on ≠ some p) → (s.procs p).state.Live →
    (s.procs p).state ≠ .zombie → ∀ g ∈ (s.procs p).context, g.Sane s.initproc (some p)

theorem Change.resumable {i : Slot} {q : Proc M} (h : Change s c i f q)
    (hold : ∀ r pc, f = .fork r pc → pc.Holds s) (hon : (s.cpus c).on ≠ some i) (hl : q.state.Live)
    (hz : q.state ≠ .zombie) :
    ((s.procs i).state.Live ∧ (s.procs i).state ≠ .zombie ∧ q.context = (s.procs i).context) ∨
      q.context = [.forkret i .rel] := by
  rcases h.live_of hold hon hl with ⟨hlive, e⟩ | e
  · refine .inl ⟨hlive, fun hzi => ?_, e⟩
    cases h
    case visit op => rcases visit_state op (s.procs i) with h | h <;> simp_all
    case run r pid =>
      have := (hold r _ rfl i rfl).1
      simp_all
    all_goals simp_all [copyParent, freeproc, ProcState.Live]
  · exact .inr e

theorem Sane.self (h : Inv s) (hsane : Sane s) (hf : s.stackOf c = f :: rest)
    (hi : instrOf s c a f = some instr) (he : exec s c f rest instr = some s') :
    ∀ g ∈ s'.stackOf c, g.Sane s.initproc (s'.cpus c).on := by
  have hst := h.stack_cons hf
  have hrest : ∀ g ∈ f :: rest, g.Sane s.initproc (s.cpus c).on := fun g hg => hsane.stack c g (hf ▸ hg)
  intro g hg
  cases hsw : instr.isSwtch with
  | false =>
    rw [exec_on he hsw]
    obtain ⟨e, hnext⟩ := exec_next h hf (instrOf_sane h hf (hrest f (.head _)) hi) he hsw
    rw [e] at hg
    rcases List.mem_append.mp hg with hg | hg
    · exact hnext g hg
    · exact hrest g (.tail _ hg)
  | true =>
    cases instr with
    | swtchTo i k =>
      obtain rfl := instrOf_swtchTo hi
      obtain ⟨-, -, hrun, -⟩ := hst.of_scheduler
      replace hrun : (s.procs i).state = .running := hrun
      cases he
      simp only [State.stackOf, Function.update_self] at hg ⊢
      exact hsane.parked i (h.saved_of_swtch hf).1 (.inr (.inr (.inl hrun))) (by simp [hrun]) g hg
    | swtchOut i k =>
      obtain ⟨ret, rfl⟩ := instrOf_swtchOut hi
      obtain ⟨p, hon⟩ := hst.on_some (fun _ => id) id
      cases he
      simp only [State.stackOf, Function.update_self, (h.busy c p hon).2, List.mem_singleton] at hg
      rw [hg]
      trivial
    | _ => cases hsw

theorem Sane.waiting (h : Inv s) (hsane : Sane s) (hf : s.stackOf c = f :: rest) (hs : kstep s c a = some s')
    (hoff : ∀ c', (s'.cpus c').on ≠ some p) (hlive : (s'.procs p).state.Live)
    (hz : (s'.procs p).state ≠ .zombie) :
    ∀ g ∈ (s'.procs p).context, g.Sane s.initproc (some p) := by
  intro g hg
  by_cases hon : ∃ c', (s.cpus c').on = some p
  · obtain ⟨c', hon⟩ := hon
    rcases kstep_on h hf hs hon with hon' | ⟨rfl, ret, rfl, -, e⟩
    · exact absurd hon' (hoff c')
    · -- a process that leaves the CPU in `exit` is a zombie
      obtain ⟨⟨-, -, hres⟩, hstate⟩ := (h.stack_cons hf).ok hon
      rw [e] at hg hz
      rcases List.mem_cons.mp hg with rfl | hg
      · obtain ⟨q, rfl⟩ | ⟨q, chan, lk, ret, rfl⟩ | ⟨q, status, rfl⟩ := Frame.resumes_cases hres
        · trivial
        · trivial
        · exact absurd hstate hz
      · exact hon ▸ hsane.stack c' g (hf ▸ .tail _ hg)
  · have hoff' : ∀ c', (s.cpus c').on ≠ some p := fun c' e => hon ⟨c', e⟩
    rcases (kstep_stepped_of h hf hs).slot h hf p with hchg | ⟨e, -⟩
    · rcases hchg.resumable (StackOk.fork_holds h hf) (hoff' c) hlive hz with ⟨hl, hz', e⟩ | e <;>
        rw [e] at hg
      · exact hsane.parked p hoff' hl hz' g hg
      · rw [List.mem_singleton.mp hg]
        trivial
    · exact absurd e (hoff' c)

/-- CPU `c` may be about to take the lock. -/
def Spins (s : State M) (c : CpuId) (l : Lock M) : Prop :=
  ∃ f rest a k, s.stackOf c = f :: rest ∧ instrOf s c a f = some (.acquire l k)

/-- What a CPU holds comes before what it waits for. -/
theorem Spins.before (h : Inv s ∧ Sane s) (hs : Spins s c l) (hl : s.locks l' = some c) : l'.Before l := by
  obtain ⟨f, rest, a, k, hf, hi⟩ := hs
  exact (instrOf_sane h.1 hf (h.2.stack c f (hf ▸ .head _)) hi).before h.1 hf hl

end Xv6Freezer
